import Mathlib.Data.List.Chain
import Mathlib.Data.List.Forall2
import TypeResolution.Proofs.Store.Formed
import TypeResolution.Type.Scope

/-!
Tidy stores. The members of unions and intersections are at least two and stand in order, the fields
of an object have different names, and a template has a hole, no empty text and no two texts in a
row. The constructors make tidy nodes. What is to be shown of a computation is that it leaves a tidy
store tidy, and what it gives.
-/

namespace TypeResolution

open Store

namespace Span

def isText : Span → Bool
  | .text _ => true
  | .hole _ => false

/-- No text is empty, and texts do not follow each other. -/
structure Joined (spans : List Span) : Prop where
  nonempty : .text "" ∉ spans
  apart : spans.IsChain fun a b => ¬(a.isText ∧ b.isText)

/-- There is a hole, and the texts are joined. -/
def Tidy (spans : List Span) : Prop := (∃ t, .hole t ∈ spans) ∧ Joined spans

end Span

namespace Node

def Tidy (numbers : Numbering) : Node → Prop
  | .union members | .intersection members =>
      2 ≤ members.length ∧ members.Pairwise (TypeId.Before numbers)
  | .object shape => (shape.fields.map (·.name)).Nodup
  | .template spans => Span.Tidy spans
  | _ => True

end Node

namespace Store

def Tidy (s : Store) : Prop := ∀ t, (s.node t).Tidy s.numbers

theorem tidy_push {s : Store} {n : Node} (hs : s.Tidy) (hn : n.Tidy s.numbers) : (s.push n).Tidy := by
  intro t
  by_cases ht : t.index < (s.push n).size
  · rcases lt_or_eq_of_lt_push ht with hlt | rfl
    · rw [node_push_of_lt hlt]
      exact hs t
    · rw [node_push_new]
      exact hn
  · rw [node_eq_error_of_size_le (Nat.le_of_not_lt ht)]
    trivial

theorem tidy_foldl_push {s : Store} (hs : s.Tidy) (ns : List Node)
    (hns : ∀ n ∈ ns, n.Tidy s.numbers) : (ns.foldl push s).Tidy := by
  induction ns generalizing s with
  | nil => exact hs
  | cons n rest ih =>
      obtain ⟨hn, hrest⟩ := List.forall_mem_cons.mp hns
      exact ih (tidy_push hs hn) hrest

theorem tidy_fresh {numbers : Numbering} : (fresh numbers).Tidy := by
  refine tidy_foldl_push (fun t => ?_) Node.fixed fun n hn => ?_
  · rw [node_eq_error_of_size_le (Nat.zero_le _)]
    trivial
  · simp only [Node.fixed, List.mem_cons, List.not_mem_nil, or_false] at hn
    rcases hn with rfl | rfl | rfl | rfl | rfl | rfl | rfl | rfl | rfl | rfl | rfl | rfl <;> trivial

theorem tidy_empty : empty.Tidy := tidy_fresh

theorem Tidy.intern {s : Store} {n : Node} (hs : s.Tidy) (hn : n.Tidy s.numbers) :
    (s.intern n).2.Tidy := by
  unfold Store.intern
  split
  · exact hs
  · exact tidy_push hs hn

theorem Tidy.nodup_names {s : Store} {t : TypeId} {shape : ObjectShape} (hs : s.Tidy)
    (h : s.objectShape? t = some shape) : (shape.fields.map (·.name)).Nodup := by
  have ht := hs t
  unfold objectShape? at h
  split at h
  · rename_i hnode
    cases h
    rwa [hnode] at ht
  · cases h

theorem Alike.tidy {s s' : Store} (h : s.Alike s') (hs : s.Tidy) : s'.Tidy := by
  intro t
  rw [h.node, h.numbers_eq]
  exact hs t

end Store

namespace Tidy

/-- From a tidy store on, the computation ends with a tidy store and a result as described. -/
def BuildGives {α : Type} (m : Build α) (Q : α → Prop) : Prop :=
  ∀ s : Store, s.Tidy → (m s).2.Tidy ∧ Q (m s).1

/-- Computations of which it can be said what they give. -/
class Tidying (M : Type → Type) [Monad M] [MonadLiftT Build M] where
  Gives {α : Type} : M α → (α → Prop) → Prop
  pure {α : Type} {a : α} {Q : α → Prop} : Q a → Gives (pure a) Q
  bind {α β : Type} {m : M α} {f : α → M β} {Q : α → Prop} {Q' : β → Prop} :
    Gives m Q → (∀ a, Q a → Gives (f a) Q') → Gives (m >>= f) Q'
  lift {α : Type} {m : Build α} {Q : α → Prop} : BuildGives m Q → Gives (liftM m) Q

export Tidying (Gives)

instance : Tidying Build where
  Gives := BuildGives
  pure h _ hs := ⟨hs, h⟩
  bind hm hf s hs := hf _ (hm s hs).2 _ (hm s hs).1
  lift h := h

section transformers

variable {M : Type → Type} [Monad M] [LawfulMonad M] [MonadLiftT Build M] [Tidying M]
  {σ ε : Type}

instance : Tidying (StateT σ M) where
  Gives m Q := ∀ x, Gives (m x) fun r => Q r.1
  pure h _ := Tidying.pure h
  bind hm hf x := Tidying.bind (hm x) fun r hr => hf r.1 hr r.2
  lift h _ := Tidying.bind (Tidying.lift h) fun _ ha => Tidying.pure ha

instance : Tidying (ExceptT ε M) where
  Gives m Q := Gives m.run fun r => ∀ a, r = .ok a → Q a
  pure h := Tidying.pure fun _ ha => Except.ok.inj ha ▸ h
  bind hm hf := by
    refine Tidying.bind hm fun r hr => ?_
    cases r with
    | ok a => exact hf a (hr a rfl)
    | error e => exact Tidying.pure fun _ ha => nomatch ha
  lift {α m Q} h := by
    change Gives (Except.ok <$> (liftM m : M α)) _
    rw [map_eq_pure_bind]
    exact Tidying.bind (Tidying.lift h) fun a ha => Tidying.pure fun _ hb => Except.ok.inj hb ▸ ha

end transformers

/-- The computation leaves a tidy store tidy. -/
abbrev Keeps {M : Type → Type} [Monad M] [MonadLiftT Build M] [Tidying M] {α : Type} (m : M α) :
    Prop :=
  Gives m fun _ => True

section combinators

variable {M : Type → Type} [Monad M] [MonadLiftT Build M] [Tidying M] {α β γ σ ε : Type}
  {Q : α → Prop} {Q' : β → Prop}

theorem gives_mono [LawfulMonad M] {m : M α} {Q₁ : α → Prop} (h : Gives m Q) (hQ : ∀ a, Q a → Q₁ a) :
    Gives m Q₁ := by
  rw [← bind_pure m]
  exact Tidying.bind h fun a ha => Tidying.pure (hQ a ha)

theorem keeps_pure {a : α} : Keeps (pure a : M α) := Tidying.pure trivial

theorem keeps_of_gives [LawfulMonad M] {m : M α} (h : Gives m Q) : Keeps m :=
  gives_mono h fun _ _ => trivial

theorem keeps_bind {m : M α} {f : α → M β} (hm : Keeps m) (hf : ∀ a, Gives (f a) Q') :
    Gives (m >>= f) Q' :=
  Tidying.bind hm fun a _ => hf a

theorem gives_ite {c : Prop} [Decidable c] {m k : M α} (hm : c → Gives m Q) (hk : ¬c → Gives k Q) :
    Gives (if c then m else k) Q := by
  split
  · exact hm ‹_›
  · exact hk ‹_›

theorem gives_store {f : Store → M α} (h : ∀ s : Store, s.Tidy → Gives (f s) Q) :
    Gives ((liftM (get : Build Store) : M Store) >>= f) Q :=
  Tidying.bind (Tidying.lift fun _ hs => ⟨hs, hs⟩) h

/-- What depends on the store it runs on. -/
theorem gives_read {f : Store → Build α}
    (h : ∀ s : Store, s.Tidy → (f s s).2.Tidy ∧ Q (f s s).1) : Gives (get >>= f) Q :=
  h

theorem gives_mapM [LawfulMonad M] {l : List γ} {f : γ → M α} {R : γ → α → Prop}
    (h : ∀ a ∈ l, Gives (f a) (R a)) : Gives (l.mapM f) (List.Forall₂ R l) := by
  induction l with
  | nil => exact Tidying.pure .nil
  | cons a rest ih =>
      obtain ⟨ha, hrest⟩ := List.forall_mem_cons.mp h
      rw [List.mapM_cons]
      refine Tidying.bind ha fun b hb => ?_
      exact Tidying.bind (ih hrest) fun bs hbs => Tidying.pure (.cons hb hbs)

theorem keeps_mapM [LawfulMonad M] {l : List γ} {f : γ → M α} (h : ∀ a, Keeps (f a)) :
    Keeps (l.mapM f) :=
  keeps_of_gives (gives_mapM fun a _ => h a)

theorem gives_foldlM {l : List γ} {f : β → γ → M β} {b : β} (hb : Q' b)
    (h : ∀ b, Q' b → ∀ a, Gives (f b a) Q') : Gives (l.foldlM f b) Q' := by
  induction l generalizing b with
  | nil => exact Tidying.pure hb
  | cons a rest ih =>
      rw [List.foldlM_cons]
      exact Tidying.bind (h b hb a) fun b' hb' => ih hb'

theorem keeps_forM {l : List γ} {f : γ → M PUnit} (h : ∀ a, Keeps (f a)) : Keeps (l.forM f) := by
  induction l with
  | nil => exact keeps_pure
  | cons a rest ih => exact keeps_bind (h a) fun _ => ih

theorem keeps_arrayForM [LawfulMonad M] {l : Array γ} {f : γ → M PUnit} (h : ∀ a, Keeps (f a)) :
    Keeps (l.forM f) := by
  obtain ⟨l⟩ := l
  rw [Array.forM_eq_forM, List.forM_toArray]
  exact keeps_forM h

theorem keeps_allM {l : List γ} {f : γ → M Bool} (h : ∀ a, Keeps (f a)) : Keeps (l.allM f) := by
  induction l with
  | nil => exact keeps_pure
  | cons a rest ih =>
      refine keeps_bind (h a) fun b => ?_
      cases b with
      | false => exact keeps_pure
      | true => exact ih

theorem keeps_anyM {l : List γ} {f : γ → M Bool} (h : ∀ a, Keeps (f a)) : Keeps (l.anyM f) := by
  induction l with
  | nil => exact keeps_pure
  | cons a rest ih =>
      refine keeps_bind (h a) fun b => ?_
      cases b with
      | false => exact ih
      | true => exact keeps_pure

theorem keeps_filterM {l : List γ} {f : γ → M Bool} (h : ∀ a, Keeps (f a)) :
    Keeps (l.filterM f) := by
  have haux : ∀ l done : List γ, Keeps (l.filterAuxM f done) := by
    intro l
    induction l with
    | nil => exact fun done => keeps_pure
    | cons a rest ih => exact fun done => keeps_bind (h a) fun b => ih _
  exact keeps_bind (haux l []) fun _ => keeps_pure

theorem keeps_optionMapM [LawfulMonad M] {o : Option γ} {f : γ → M α} (h : ∀ a, Keeps (f a)) :
    Keeps (o.mapM f) := by
  cases o with
  | none => exact keeps_pure
  | some a =>
      simp only [Option.mapM_some, map_eq_pure_bind]
      exact keeps_bind (h a) fun _ => keeps_pure

theorem gives_stateLift {m : M α} (h : Gives m Q) : Gives (liftM m : StateT σ M α) Q :=
  fun _ => Tidying.bind h fun _ ha => Tidying.pure ha

theorem keeps_get : Keeps (get : StateT σ M σ) := fun _ => keeps_pure

theorem keeps_modify {f : σ → σ} : Keeps (modify f : StateT σ M PUnit) := fun _ => keeps_pure

theorem keeps_throw [LawfulMonad M] {e : ε} : Keeps (throw e : ExceptT ε M α) :=
  Tidying.pure (M := M) fun _ _ => trivial

end combinators

section constructors

variable {n : Node}

theorem gives_node (t : TypeId) : Gives (Build.node t) fun n => ∃ numbers, n.Tidy numbers :=
  fun _ hs => ⟨hs, _, hs t⟩

theorem keeps_quiet {α : Type} {m : Build α} (h : ∀ s : Store, s.Alike (m s).2) : Keeps m :=
  fun s hs => ⟨(h s).tidy hs, trivial⟩

theorem keeps_origin (p : Place) : Keeps (Build.origin? p) := keeps_quiet fun s => .refl s

theorem keeps_recordOrigin (p : Place) (tag : SourceTag) : Keeps (Build.recordOrigin p tag) :=
  keeps_quiet fun s => alike_recordOrigin s p tag

theorem keeps_copyFieldOrigins (source target : TypeId) (names : List String) :
    Keeps (Build.copyFieldOrigins source target names) :=
  keeps_quiet fun s => alike_copyFieldOrigins s source target names

theorem keeps_intern (hn : ∀ numbers, n.Tidy numbers) : Keeps (Build.intern n) :=
  fun _ hs => ⟨hs.intern (hn _), trivial⟩

theorem keeps_stringLiteral (text : String) : Keeps (Build.stringLiteral text) :=
  keeps_intern fun _ => trivial

theorem keeps_literal (value : Literal) : Keeps (Build.literal value) := by
  cases value with
  | string text => exact keeps_stringLiteral text
  | number value => exact keeps_intern fun _ => trivial
  | boolean value => exact keeps_pure

theorem keeps_object {shape : ObjectShape} (h : (shape.fields.map (·.name)).Nodup) :
    Keeps (Build.object shape) :=
  keeps_intern fun _ => h

theorem keeps_function (params : List TypeId) (result : TypeId) :
    Keeps (Build.function params result) :=
  keeps_intern fun _ => trivial

theorem keeps_array (element : TypeId) : Keeps (Build.array element) := keeps_intern fun _ => trivial

theorem keeps_param (info : TypeParam) : Keeps (Build.param info) := keeps_intern fun _ => trivial

theorem keeps_reference (name : String) (args : List TypeId) : Keeps (Build.reference name args) :=
  keeps_intern fun _ => trivial

theorem keeps_conditional (c : Conditional) : Keeps (Build.conditional c) := keeps_intern fun _ => trivial

theorem keeps_mapped (m : Mapped) : Keeps (Build.mapped m) := keeps_intern fun _ => trivial

theorem keeps_indexAccess (object key : TypeId) : Keeps (Build.indexAccess object key) :=
  keeps_intern fun _ => trivial

theorem keeps_stringMap (kind : StringMap) (arg : TypeId) : Keeps (Build.stringMap kind arg) :=
  keeps_intern fun _ => trivial

theorem keeps_members {none : TypeId} {node : List TypeId → Node} (members : List TypeId)
    (hnode : ∀ numbers l, 2 ≤ l.length → l.Pairwise (TypeId.Before numbers) → (node l).Tidy numbers) :
    Keeps (do Build.ofMembers none node (← Build.inOrder members)) := by
  intro s hs
  have hsorted : s.InOrder (TypeId.sortUnique s.numbers members) :=
    TypeId.sorted_sortUnique members
  change (Build.ofMembers none node (TypeId.sortUnique s.numbers members) s).2.Tidy ∧ True
  generalize TypeId.sortUnique s.numbers members = l at hsorted
  rcases l with _ | ⟨a, _ | ⟨b, rest⟩⟩
  · exact ⟨hs, trivial⟩
  · exact ⟨hs, trivial⟩
  · exact ⟨hs.intern (hnode _ _ (by simp) hsorted), trivial⟩

theorem keeps_rawUnion (members : List TypeId) : Keeps (Build.rawUnion members) :=
  keeps_members members fun _ _ hlength hsorted => ⟨hlength, hsorted⟩

theorem keeps_rawIntersection (members : List TypeId) : Keeps (Build.rawIntersection members) :=
  keeps_members members fun _ _ hlength hsorted => ⟨hlength, hsorted⟩

theorem joined_consSpan {span : Span} {spans : List Span} (h : Span.Joined spans) :
    Span.Joined (Build.consSpan span spans) := by
  obtain ⟨hempty, hchain⟩ := h
  cases span with
  | hole t =>
      refine ⟨by simpa [Build.consSpan] using hempty, ?_⟩
      cases spans with
      | nil => exact .singleton _
      | cons b rest => exact .cons_cons (by simp [Span.isText]) hchain
  | text a =>
      match spans with
      | .text b :: rest =>
          simp only [List.mem_cons, Span.text.injEq, not_or] at hempty
          refine ⟨by simp [Build.consSpan, Ne.symm hempty.1, hempty.2], ?_⟩
          cases rest with
          | nil => exact .singleton _
          | cons c rest =>
              obtain ⟨hbc, hrest⟩ := List.isChain_cons_cons.mp hchain
              exact .cons_cons hbc hrest
      | [] =>
          by_cases ha : a = ""
          · simpa [Build.consSpan, ha] using ⟨hempty, hchain⟩
          · exact ⟨by simp [Build.consSpan, ha, Ne.symm ha], by simp [Build.consSpan, ha]⟩
      | .hole t :: rest =>
          by_cases ha : a = ""
          · simpa [Build.consSpan, ha] using ⟨hempty, hchain⟩
          · have hcons : Build.consSpan (.text a) (.hole t :: rest) = .text a :: .hole t :: rest := by
              simp [Build.consSpan, ha]
            rw [hcons]
            exact ⟨by simpa [Ne.symm ha] using hempty, .cons_cons (by simp [Span.isText]) hchain⟩

theorem joined_joinSpans (spans : List Span) : Span.Joined (Build.joinSpans spans) := by
  induction spans with
  | nil => exact ⟨by simp [Build.joinSpans], .nil⟩
  | cons span rest ih => exact joined_consSpan ih

theorem exists_hole {spans : List Span} (h : Span.Joined spans) (hnil : spans ≠ [])
    (htext : ∀ a, spans ≠ [.text a]) : ∃ t, .hole t ∈ spans := by
  match spans with
  | [] => exact absurd rfl hnil
  | .hole t :: rest => exact ⟨t, by simp⟩
  | [.text a] => exact absurd rfl (htext a)
  | .text a :: .hole t :: rest => exact ⟨t, by simp⟩
  | .text a :: .text b :: rest =>
      exact absurd ⟨rfl, rfl⟩ (List.isChain_cons_cons.mp h.apart).1

theorem keeps_template (spans : List Span) : Keeps (Build.template spans) := by
  have hjoined := joined_joinSpans spans
  unfold Build.template
  split
  · exact keeps_stringLiteral ""
  · exact keeps_stringLiteral _
  · rename_i hnil htext
    exact keeps_intern fun _ => ⟨exists_hole hjoined hnil htext, hjoined⟩

end constructors

end Tidy

end TypeResolution
