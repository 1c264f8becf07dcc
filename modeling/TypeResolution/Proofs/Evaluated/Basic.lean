import TypeResolution.Evaluation.Evaluate
import TypeResolution.Proofs.Normal.Idempotent
import TypeResolution.Proofs.Replay.Substitution
import TypeResolution.Proofs.Tidy.Basic

/-!
Types that have been evaluated. Their unions and intersections are in normal form, and whatever work
they leave undone can not be done: it waits for a parameter, or what it would list is too much.
Unions and intersections of evaluated types are evaluated.
-/

namespace TypeResolution

open Store TypeResolution.Normal

namespace Eval

/-- The key picks a part of the object, or is looked for in its members. -/
def picks : Node → Node → Bool
  | .union _, _ | .intersection _, _ => true
  | .object _, .literal (.string _) | .object _, .intrinsic .string => true
  | .array _, .intrinsic .number | .array _, .literal (.number _) => true
  | .array _, .literal (.string _) => true
  | _, _ => false

/-- Whether an access that picks nothing waits for a parameter. -/
def waits (s : Store) (object key : TypeId) : Bool :=
  match s.node object with
  | .object _ | .array _ => s.containsParams key
  | _ => s.containsParams object || s.containsParams key

/-- The texts that spans with evaluated holes spell. -/
def spelled (s : Store) : List Span → Option (List String) → Option (List String)
  | [], texts => texts
  | .text a :: rest, texts => spelled s rest (texts.map (·.map (· ++ a)))
  | .hole t :: rest, texts => spelled s rest (spell texts (Template.literalTexts s t))

/-- Whether the union of the texts takes the place of the template. -/
def listed (texts : Option (List String)) : Bool :=
  texts.any (·.all fun text => text.utf8ByteSize ≤ Limits.templateLength)

/-- Whether a mapped type has to wait for its source. -/
def unmapped : Node → Bool
  | .union _ | .object _ | .intrinsic _ | .literal _ | .array _ | .function _ | .error => false
  | _ => true

end Eval

namespace Node

/-- The components that are evaluated with the node. -/
def evaluatedParts : Node → List TypeId
  | .conditional c => [c.check, c.pattern]
  | .mapped m => [m.source]
  | .param _ | .reference .. => []
  | n => n.components

/-- No work can be done at the node itself, whose parts are evaluated. -/
def Rests (s : Store) : Node → Prop
  | .reference .. => False
  | .conditional c =>
      c.check ≠ .any ∧ (c.distributive → c.check ≠ .never ∧ s.unionMembers? c.check = none) ∧
        (s.containsParams c.check || s.containsParamsExcept c.infer c.pattern)
  | .mapped m => Eval.unmapped (s.node m.source)
  | .indexAccess obj key =>
      obj ≠ .any ∧ key ≠ .never ∧ s.unionMembers? key = none ∧
        Eval.picks (s.node obj) (s.node key) = false ∧ Eval.waits s obj key
  | .template spans =>
      Span.Tidy spans ∧ .hole .never ∉ spans ∧
        Eval.listed (Eval.spelled s spans (some [""])) = false
  | .stringMap _ arg =>
      arg ≠ .never ∧ arg ≠ .any ∧ s.unionMembers? arg = none ∧ s.stringLiteral? arg = none
  | _ => True

theorem evaluatedParts_subset {n : Node} {c : TypeId} (hc : c ∈ n.evaluatedParts) :
    c ∈ n.components := by
  cases n with
  | conditional d =>
      simp only [evaluatedParts, List.mem_cons, List.not_mem_nil, or_false] at hc
      rcases hc with rfl | rfl <;> simp [components]
  | mapped m =>
      rw [List.mem_singleton.mp hc]
      exact List.mem_cons_self
  | param _ | reference _ _ => cases hc
  | _ => exact hc

theorem evaluatedParts_of_isStructural {n : Node} (hn : n.isStructural) :
    n.evaluatedParts = n.components := by
  cases n with
  | conditional _ | mapped _ | param _ | reference _ _ => cases hn
  | _ => rfl

theorem rests_of_isStructural {s : Store} {n : Node} (hn : n.isStructural) : n.Rests s := by
  cases n with
  | reference _ _ | conditional _ | mapped _ | indexAccess _ _ | template _ | stringMap _ _ => cases hn
  | _ => trivial

end Node

section kinds

variable {s : Store} {t : TypeId}

theorem Store.stringLiteral?_eq_none (h : ∀ text, s.node t ≠ .literal (.string text)) :
    s.stringLiteral? t = none := by
  unfold stringLiteral?
  split
  · rename_i text hn
    exact absurd hn (h text)
  · rfl

end kinds

section later

variable {P : String → Prop} {s s' : Store} {n : Node}

theorem Eval.spelled_eq (h : s.Extends s') {spans : List Span}
    (hspans : ∀ t, .hole t ∈ spans → s.Closed P t) (texts : Option (List String)) :
    spelled s' spans texts = spelled s spans texts := by
  induction spans generalizing texts with
  | nil => rfl
  | cons span rest ih =>
      have hrest := ih fun t ht => hspans t (List.mem_cons_of_mem _ ht)
      cases span with
      | text a => exact hrest _
      | hole t =>
          unfold spelled Template.literalTexts
          rw [Template.literalTextsAt_eq h (hspans t List.mem_cons_self), hrest]

/-- Whether a node rests does not depend on what is added to the store. -/
theorem Node.rests_iff (hext : s.Extends s') (hn : n.Closed P s) : n.Rests s' ↔ n.Rests s := by
  have hpart : ∀ {c : TypeId}, c ∈ n.components → s'.node c = s.node c := fun hc =>
    (hn.components _ hc).node_eq hext
  cases n with
  | conditional c =>
      have hcheck := hn.components c.check (by simp [components])
      have hpattern := hn.components c.pattern (by simp [components])
      simp only [Rests, containsParams_eq hext hcheck, containsParamsExcept,
        hasFreeParam_eq hext hpattern, Store.unionMembers?, hcheck.node_eq hext]
  | mapped m => simp only [Rests, hpart (c := m.source) (by simp [components])]
  | indexAccess object key =>
      have hobject := hn.components object (by simp [components])
      have hkey := hn.components key (by simp [components])
      simp only [Rests, Eval.waits, containsParams_eq hext hobject, containsParams_eq hext hkey,
        Store.unionMembers?, hobject.node_eq hext, hkey.node_eq hext]
  | template spans =>
      have hspans : ∀ t, .hole t ∈ spans → s.Closed P t := fun t ht =>
        hn.components t (List.mem_filterMap.mpr ⟨_, ht, rfl⟩)
      simp only [Rests, Eval.spelled_eq hext hspans]
  | stringMap kind arg =>
      simp only [Rests, Store.unionMembers?, stringLiteral?, hpart (c := arg) (by simp [components])]
  | _ => exact Iff.rfl

end later

/-- Evaluated down to its smallest parts. -/
inductive Evaluated (s : Store) : TypeId → Prop
  | intro {t : TypeId} : s.Closed AnyName t → (s.node t).InForm s → (s.node t).Rests s →
      (∀ c ∈ (s.node t).evaluatedParts, Evaluated s c) → Evaluated s t

namespace Evaluated

variable {s s' : Store} {t c : TypeId} {n : Node}

theorem closed (h : Evaluated s t) : s.Closed AnyName t := by
  cases h
  assumption

theorem inForm (h : Evaluated s t) : (s.node t).InForm s := by
  cases h
  assumption

theorem rests (h : Evaluated s t) : (s.node t).Rests s := by
  cases h
  assumption

theorem part (h : Evaluated s t) (hc : c ∈ (s.node t).evaluatedParts) : Evaluated s c := by
  cases h with
  | intro _ _ _ hparts => exact hparts c hc

theorem mono (h : Evaluated s t) (hext : s.Extends s') : Evaluated s' t := by
  induction h with
  | @intro t hclosed hform hrests _ ih =>
      have hnode := hclosed.node_eq hext
      refine .intro (hext.closed hclosed) ?_ ?_ ?_ <;> rw [hnode]
      · exact hform.congr hext.numbers_eq fun _ c hc => (hclosed.node.components c hc).node_eq hext
      · exact (Node.rests_iff hext hclosed.node).mpr hrests
      · exact ih

theorem back (h : Evaluated s' t) (hext : s.Extends s') (ht : s.Closed AnyName t) :
    Evaluated s t := by
  induction h with
  | @intro t _ hform hrests _ ih =>
      have hnode := ht.node_eq hext
      rw [hnode] at hform hrests ih
      refine .intro ht ?_ ((Node.rests_iff hext ht.node).mp hrests) fun c hc => ?_
      · exact hform.congr hext.numbers_eq.symm fun _ c hc =>
          ((ht.node.components c hc).node_eq hext).symm
      · exact ih c hc (ht.node.components c (Node.evaluatedParts_subset hc))

/-- A node of evaluated parts at which no work can be done. -/
theorem of_rests (ht : s.Closed AnyName t) (hn : s.node t = n) (hform : n.InForm s)
    (hrests : n.Rests s) (hparts : ∀ c ∈ n.evaluatedParts, Evaluated s c) : Evaluated s t := by
  subst hn
  exact .intro ht hform hrests hparts

theorem of_fixed (hs : s.Formed) (ht : t.isFixed) : Evaluated s t := by
  refine .intro (hs.closed_fixed ht) ?_ ?_ ?_ <;>
    rcases hs.node_of_isFixed ht with hn | ⟨k, hn⟩ | ⟨b, hn⟩ <;>
    simp [hn, Node.InForm, Node.Rests, Node.evaluatedParts, Node.components]

end Evaluated

/-- Unions and intersections of evaluated types are evaluated. -/
theorem kept_evaluated : Kept Evaluated where
  mono h ht := ht.mono h
  known ht := ht.closed.known
  fixed hs ht := .of_fixed hs ht
  component ht hn hc := ht.part (Node.evaluatedParts_of_isStructural hn ▸ hc)
  made ht hn hform hc := by
    refine .intro (.intro ht (fun _ _ _ => trivial) fun c hmem => (hc c hmem).closed) hform
      (Node.rests_of_isStructural hn) fun c hmem => ?_
    exact hc c (Node.evaluatedParts_subset hmem)

end TypeResolution
