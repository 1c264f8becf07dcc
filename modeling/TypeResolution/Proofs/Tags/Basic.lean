import Mathlib.Data.List.Forall2
import Mathlib.Data.Set.Insert
import TypeResolution.Proofs.Store.Formed
import TypeResolution.Resolution

/-!
Two runs side by side on stores with the same types, whose source tags differ. Both end with the
same values and the same types, as long as nothing but tags depends on tags. Of the diagnostics only
what they say is compared, not where they point, how often they stand there or in which order.
-/

namespace TypeResolution

namespace Diagnostic

/-- What a diagnostic says, wherever it points. -/
def said (d : Diagnostic) : DiagnosticKind × String := (d.kind, d.message)

@[simp] theorem said_withLocation (d : Diagnostic) (site : Option SourceTag) :
    (d.withLocation site).said = d.said := rfl

@[simp] theorem said_withRelated (d : Diagnostic) (site : Option SourceTag) (message : String) :
    (d.withRelated site message).said = d.said := rfl

/-- All that diagnostics say. -/
def told (ds : List Diagnostic) : Set (DiagnosticKind × String) := {x | ∃ d ∈ ds, d.said = x}

@[simp] theorem told_nil : told [] = ∅ := by
  simp [told]

@[simp] theorem told_cons (d : Diagnostic) (ds : List Diagnostic) :
    told (d :: ds) = insert d.said (told ds) := by
  ext x
  simp [told, eq_comm]

@[simp] theorem told_append (ds ds' : List Diagnostic) : told (ds ++ ds') = told ds ∪ told ds' := by
  ext x
  simp [told, or_and_right, exists_or]

theorem said_mem_told {d : Diagnostic} {ds : List Diagnostic} (h : d ∈ ds) : d.said ∈ told ds :=
  ⟨d, h, rfl⟩

theorem told_push (ds : Array Diagnostic) (d : Diagnostic) :
    told (ds.push d).toList = insert d.said (told ds.toList) := by
  rw [Array.toList_push, told_append, told_cons, told_nil, Set.union_insert, Set.union_empty]

/-- Adds a diagnostic unless the same one is there. -/
def addNew (ds : Array Diagnostic) (d : Diagnostic) : Array Diagnostic :=
  if ds.contains d then ds else ds.push d

theorem told_addNew (ds : Array Diagnostic) (d : Diagnostic) :
    told (addNew ds d).toList = insert d.said (told ds.toList) := by
  unfold addNew
  split
  · rename_i h
    have hmem : d ∈ ds.toList := Array.mem_toList_iff.mpr (Array.contains_iff_mem.mp h)
    exact (Set.insert_eq_of_mem (said_mem_told hmem)).symm
  · exact told_push ds d

/-- Diagnostics that are added one by one say what they say. -/
theorem told_foldl {add : Array Diagnostic → Diagnostic → Array Diagnostic}
    (hadd : ∀ ds d, told (add ds d).toList = insert d.said (told ds.toList))
    (ds : Array Diagnostic) (new : List Diagnostic) :
    told (new.foldl add ds).toList = told ds.toList ∪ told new := by
  induction new generalizing ds with
  | nil => simp
  | cons d rest ih =>
      rw [List.foldl_cons, ih, hadd, told_cons, Set.insert_union, Set.union_insert]

end Diagnostic

namespace Store.Alike

variable {s s' : Store} (h : s.Alike s')

include h

theorem eq_with : s' = { s with origins := s'.origins } := by
  obtain ⟨hnumbers, hnodes, hids⟩ := h
  rw [← hnumbers, hnodes, hids]

theorem leavesAt (parts : Node → Option (List TypeId)) (fuel : Nat) :
    s'.leavesAt parts fuel = s.leavesAt parts fuel := by
  induction fuel with
  | zero => rfl
  | succ fuel ih =>
      funext t
      simp only [Store.leavesAt, h.node, ih]

theorem unionLeaves : s'.unionLeaves = s.unionLeaves := by
  funext t
  exact congrFun (h.leavesAt _ _) t

theorem intersectionLeaves : s'.intersectionLeaves = s.intersectionLeaves := by
  funext t
  exact congrFun (h.leavesAt _ _) t

theorem absorbLiterals : s'.absorbLiterals = s.absorbLiterals := by
  rw [h.eq_with]
  rfl

theorem unionMembers? : s'.unionMembers? = s.unionMembers? := by
  rw [h.eq_with]
  rfl

theorem unionMembers : s'.unionMembers = s.unionMembers := by
  rw [h.eq_with]
  rfl

theorem objectShape? : s'.objectShape? = s.objectShape? := by
  rw [h.eq_with]
  rfl

theorem isObject : s'.isObject = s.isObject := by
  rw [h.eq_with]
  rfl

theorem isEmptyObject : s'.isEmptyObject = s.isEmptyObject := by
  rw [h.eq_with]
  rfl

theorem stringLiteral? : s'.stringLiteral? = s.stringLiteral? := by
  rw [h.eq_with]
  rfl

theorem reducePrimitives : Normal.reducePrimitives s' = Normal.reducePrimitives s := by
  rw [h.eq_with]
  rfl

theorem replacement? : Instantiation.replacement? s' = Instantiation.replacement? s := by
  rw [h.eq_with]
  rfl

theorem covers : Inference.covers s' = Inference.covers s := by
  rw [h.eq_with]
  rfl

theorem exclusive : Inference.exclusive s' = Inference.exclusive s := by
  rw [h.eq_with]
  rfl

theorem truthiness : Narrowing.truthiness s' = Narrowing.truthiness s := by
  rw [h.eq_with]
  rfl

theorem textAt (depth : Nat) : Printer.textAt s' depth = Printer.textAt s depth := by
  induction depth with
  | zero => rfl
  | succ depth ih =>
      funext t
      have hnode : Printer.nodeText s' = Printer.nodeText s := by
        rw [h.eq_with]
        rfl
      simp only [Printer.textAt, h.node, ih, hnode]

theorem text : s'.text = s.text := h.textAt _

theorem walkAt (wanted : String → Bool) (depth : Nat) :
    Scope.walkAt s' wanted depth = Scope.walkAt s wanted depth := by
  induction depth with
  | zero => rfl
  | succ depth ih =>
      funext bound t
      simp only [Scope.walkAt, h.node, ih]

theorem hasFreeParam : s'.hasFreeParam = s.hasFreeParam := by
  funext wanted t
  simp only [Store.hasFreeParam, h.walkAt]

theorem containsParams : s'.containsParams = s.containsParams := by
  funext t
  simp only [Store.containsParams, h.hasFreeParam]

theorem containsParamsExcept : s'.containsParamsExcept = s.containsParamsExcept := by
  funext except t
  simp only [Store.containsParamsExcept, h.hasFreeParam]

theorem referencesParam : s'.referencesParam = s.referencesParam := by
  funext name t
  simp only [Store.referencesParam, h.hasFreeParam]

theorem literalTexts : Template.literalTexts s' = Template.literalTexts s := by
  have hat : ∀ fuel, Template.literalTextsAt s' fuel = Template.literalTextsAt s fuel := by
    intro fuel
    induction fuel with
    | zero => rfl
    | succ fuel ih =>
        funext t
        simp only [Template.literalTextsAt, h.node, ih]
  funext t
  simp only [Template.literalTexts, hat]

theorem describes : Template.describes s' = Template.describes s := by
  have hat : ∀ fuel, Template.holeAcceptsAt s' fuel = Template.holeAcceptsAt s fuel := by
    intro fuel
    induction fuel with
    | zero => rfl
    | succ fuel ih =>
        funext before t
        simp only [Template.holeAcceptsAt, h.node, ih]
  have haccepts : Template.holeAccepts s' = Template.holeAccepts s := by
    funext before t
    simp only [Template.holeAccepts, hat]
  funext spans text
  simp only [Template.describes, haccepts]

theorem mentions (p : Inference.Problem) : Inference.mentions p s' = Inference.mentions p s := by
  have hat : ∀ depth, Inference.mentionsAt p s' depth = Inference.mentionsAt p s depth := by
    intro depth
    induction depth with
    | zero => rfl
    | succ depth ih =>
        funext t
        simp only [Inference.mentionsAt, h.node, ih]
  funext t
  simp only [Inference.mentions, hat]

theorem typeofMatch (kind : TypeofKind) :
    Narrowing.typeofMatch s' kind = Narrowing.typeofMatch s kind := by
  have hat : ∀ fuel, Narrowing.typeofMatchAt s' kind fuel = Narrowing.typeofMatchAt s kind fuel := by
    intro fuel
    induction fuel with
    | zero => rfl
    | succ fuel ih =>
        funext t
        simp only [Narrowing.typeofMatchAt, h.node, ih]
  funext t
  simp only [Narrowing.typeofMatch, hat]

end Store.Alike

open Diagnostic

namespace Tags

variable {α β γ σ ε : Type}

/-- States of two runs that differ in tags only. -/
class Tagged (σ : Type) where
  Same : σ → σ → Prop

export Tagged (Same)

/-- A state without tags. -/
@[reducible] def Tagged.plain : Tagged σ := ⟨Eq⟩

instance : Tagged Nat := Tagged.plain

instance : Tagged (Std.HashMap TypeId TypeId) := Tagged.plain

instance : Tagged (List Inference.Pool) := Tagged.plain

instance : Tagged (Array Diagnostic) := ⟨fun ds ds' => told ds.toList = told ds'.toList⟩

instance : Tagged Evaluator :=
  ⟨fun e e' => ∃ ds, e' = { e with diagnostics := ds } ∧ Same e.diagnostics ds⟩

instance : Tagged Checker :=
  ⟨fun c c' => ∃ ds, c' = { c with diagnostics := ds } ∧ Same c.diagnostics ds⟩

/-- Both computations fail alike, or both succeed with results that belong together. -/
inductive Both (R : α → α → Prop) : Except ε α → Except ε α → Prop
  | ok {a b : α} : R a b → Both R (.ok a) (.ok b)
  | error {e : ε} : Both R (.error e) (.error e)

/-- On stores with the same types both computations make the same types, and their results belong
together. -/
def BuildBeside (R : α → α → Prop) (m m' : Build α) : Prop :=
  ∀ s s' : Store, s.Alike s' → (m s).2.Alike (m' s').2 ∧ R (m s).1 (m' s').1

/-- Computations that can be run side by side. -/
class Blind (M : Type → Type) [Monad M] [MonadLiftT Build M] where
  Beside {α : Type} : (α → α → Prop) → M α → M α → Prop
  pure {α : Type} {R : α → α → Prop} {a b : α} : R a b → Beside R (pure a) (pure b)
  bind {α β : Type} {R : α → α → Prop} {Q : β → β → Prop} {m m' : M α} {f f' : α → M β} :
    Beside R m m' → (∀ a b, R a b → Beside Q (f a) (f' b)) → Beside Q (m >>= f) (m' >>= f')
  lift {α : Type} {R : α → α → Prop} {m m' : Build α} :
    BuildBeside R m m' → Beside R (liftM m) (liftM m')

export Blind (Beside)

instance : Blind Build where
  Beside := BuildBeside
  pure h _ _ hs := ⟨hs, h⟩
  bind hm hf s s' hs := hf _ _ (hm s s' hs).2 _ _ (hm s s' hs).1
  lift h := h

section transformers

variable {M : Type → Type} [Monad M] [LawfulMonad M] [MonadLiftT Build M] [Blind M]

instance [Tagged σ] : Blind (StateT σ M) where
  Beside {α} R m m' := ∀ x y, Same x y →
    Beside (fun a b : α × σ => R a.1 b.1 ∧ Same a.2 b.2) (m x) (m' y)
  pure h _ _ hxy := Blind.pure ⟨h, hxy⟩
  bind hm hf x y hxy := Blind.bind (hm x y hxy) fun a b hab => hf a.1 b.1 hab.1 a.2 b.2 hab.2
  lift h _ _ hxy := Blind.bind (Blind.lift h) fun _ _ hab => Blind.pure ⟨hab, hxy⟩

instance : Blind (ExceptT ε M) where
  Beside R m m' := Beside (Both R) m.run m'.run
  pure h := Blind.pure (.ok h)
  bind hm hf := by
    refine Blind.bind hm fun a b hab => ?_
    cases hab with
    | ok h => exact hf _ _ h
    | error => exact Blind.pure .error
  lift {α R m m'} h := by
    change Beside (Both R) (Except.ok <$> (liftM m : M α)) (Except.ok <$> (liftM m' : M α))
    simp only [map_eq_pure_bind]
    exact Blind.bind (Blind.lift h) fun a b hab => Blind.pure (.ok hab)

end transformers

section combinators

variable {M : Type → Type} [Monad M] [MonadLiftT Build M] [Blind M] {R : α → α → Prop}
  {Q : β → β → Prop}

/-- Both computations give the same. -/
abbrev Agree (m m' : M α) : Prop := Beside Eq m m'

/-- The results of the computations may differ in any way. -/
abbrev Settle (m m' : M α) : Prop := Beside (fun _ _ => True) m m'

theorem agree_pure (a : α) : Agree (pure a : M α) (pure a) := Blind.pure rfl

theorem agree_bind {m m' : M α} {f f' : α → M β} (hm : Agree m m')
    (hf : ∀ a, Beside Q (f a) (f' a)) : Beside Q (m >>= f) (m' >>= f') := by
  refine Blind.bind hm fun a b hab => ?_
  subst hab
  exact hf a

theorem settle_bind {m m' : M α} {f f' : α → M β} (hm : Settle m m')
    (hf : ∀ a b, Beside Q (f a) (f' b)) : Beside Q (m >>= f) (m' >>= f') :=
  Blind.bind hm fun a b _ => hf a b

theorem agree_lift {m m' : Build α} (h : Agree m m') : Agree (liftM m : M α) (liftM m') :=
  Blind.lift h

theorem beside_mono [LawfulMonad M] {R' : α → α → Prop} {m m' : M α} (h : Beside R m m')
    (hR : ∀ a b, R a b → R' a b) : Beside R' m m' := by
  rw [← bind_pure m, ← bind_pure m']
  exact Blind.bind h fun a b hab => Blind.pure (hR a b hab)

theorem beside_ite {c : Prop} [Decidable c] {m m' k k' : M α} (hm : Beside R m m')
    (hk : Beside R k k') : Beside R (if c then m else k) (if c then m' else k') := by
  split
  · exact hm
  · exact hk

theorem beside_store {f f' : Store → M α} (h : ∀ s s' : Store, s.Alike s' → Beside R (f s) (f' s')) :
    Beside R ((liftM (get : Build Store) : M Store) >>= f)
      ((liftM (get : Build Store) : M Store) >>= f') :=
  Blind.bind (Blind.lift fun _ _ hs => ⟨hs, hs⟩) h

theorem beside_mapM [LawfulMonad M] {l l' : List γ} {S : γ → γ → Prop} {f f' : γ → M α}
    (hl : List.Forall₂ S l l') (h : ∀ a b, S a b → Beside R (f a) (f' b)) :
    Beside (List.Forall₂ R) (l.mapM f) (l'.mapM f') := by
  induction hl with
  | nil => exact Blind.pure .nil
  | cons hab _ ih =>
      simp only [List.mapM_cons]
      refine Blind.bind (h _ _ hab) fun a b hr => ?_
      exact Blind.bind ih fun as bs hrs => Blind.pure (.cons hr hrs)

/-- Lists whose elements differ by what `erase` takes from them. -/
theorem beside_mapM_map [LawfulMonad M] {erase : γ → γ} {f f' : γ → M α}
    (h : ∀ a, Beside R (f a) (f' (erase a))) (l : List γ) :
    Beside (List.Forall₂ R) (l.mapM f) ((l.map erase).mapM f') := by
  have hl : List.Forall₂ (fun a b => b = erase a) l (l.map erase) :=
    List.forall₂_map_right_iff.mpr (List.forall₂_same.mpr fun _ _ => rfl)
  exact beside_mapM hl fun a b hab => hab ▸ h a

theorem agree_mapM_map [LawfulMonad M] {erase : γ → γ} {f f' : γ → M α}
    (h : ∀ a, Agree (f a) (f' (erase a))) (l : List γ) :
    Agree (l.mapM f) ((l.map erase).mapM f') := by
  refine beside_mono (beside_mapM_map h l) fun as bs hs => ?_
  rwa [List.forall₂_eq_eq_eq] at hs

theorem agree_mapM [LawfulMonad M] {l : List γ} {f f' : γ → M α} (h : ∀ a, Agree (f a) (f' a)) :
    Agree (l.mapM f) (l.mapM f') := by
  have hmap : Agree (l.mapM f) ((l.map fun a => a).mapM f') := agree_mapM_map h l
  rwa [List.map_id'] at hmap

theorem agree_foldlM {l : List γ} {f f' : β → γ → M β} (h : ∀ b a, Agree (f b a) (f' b a)) (b : β) :
    Agree (l.foldlM f b) (l.foldlM f' b) := by
  induction l generalizing b with
  | nil => exact agree_pure b
  | cons a rest ih =>
      simp only [List.foldlM_cons]
      exact agree_bind (h b a) ih

theorem agree_forM_of_forall₂ {l l' : List γ} {S : γ → γ → Prop} {f f' : γ → M PUnit}
    (hl : List.Forall₂ S l l') (h : ∀ a b, S a b → Agree (f a) (f' b)) :
    Agree (l.forM f) (l'.forM f') := by
  induction hl with
  | nil => exact agree_pure _
  | cons hab _ ih => exact agree_bind (h _ _ hab) fun _ => ih

theorem agree_forM {l : List γ} {f f' : γ → M PUnit} (h : ∀ a, Agree (f a) (f' a)) :
    Agree (l.forM f) (l.forM f') := by
  have hl : List.Forall₂ Eq l l := List.forall₂_refl l
  exact agree_forM_of_forall₂ hl fun a b hab => hab ▸ h a

theorem agree_allM {l : List γ} {f f' : γ → M Bool} (h : ∀ a, Agree (f a) (f' a)) :
    Agree (l.allM f) (l.allM f') := by
  induction l with
  | nil => exact agree_pure true
  | cons a rest ih =>
      refine agree_bind (h a) fun b => ?_
      cases b with
      | false => exact agree_pure false
      | true => exact ih

theorem agree_anyM {l : List γ} {f f' : γ → M Bool} (h : ∀ a, Agree (f a) (f' a)) :
    Agree (l.anyM f) (l.anyM f') := by
  induction l with
  | nil => exact agree_pure false
  | cons a rest ih =>
      refine agree_bind (h a) fun b => ?_
      cases b with
      | false => exact ih
      | true => exact agree_pure true

theorem agree_filterM {l : List γ} {f f' : γ → M Bool} (h : ∀ a, Agree (f a) (f' a)) :
    Agree (l.filterM f) (l.filterM f') := by
  have haux : ∀ l done : List γ, Agree (l.filterAuxM f done) (l.filterAuxM f' done) := by
    intro l
    induction l with
    | nil => exact fun done => agree_pure done
    | cons a rest ih => exact fun done => agree_bind (h a) fun b => ih _
  exact agree_bind (haux l []) fun _ => agree_pure _

theorem agree_optionMapM [LawfulMonad M] {o : Option γ} {f f' : γ → M α}
    (h : ∀ a, Agree (f a) (f' a)) : Agree (o.mapM f) (o.mapM f') := by
  cases o with
  | none => exact agree_pure none
  | some a =>
      simp only [Option.mapM_some, map_eq_pure_bind]
      exact agree_bind (h a) fun _ => agree_pure _

section state

variable [Tagged σ]

theorem beside_stateLift {m m' : M α} (h : Beside R m m') :
    Beside R (liftM m : StateT σ M α) (liftM m') :=
  fun _ _ hxy => Blind.bind h fun _ _ hab => Blind.pure ⟨hab, hxy⟩

theorem beside_get : Beside Same (get : StateT σ M σ) get := fun _ _ h => Blind.pure ⟨h, h⟩

theorem agree_modify {f f' : σ → σ} (h : ∀ x y, Same x y → Same (f x) (f' y)) :
    Agree (modify f : StateT σ M PUnit) (modify f') :=
  fun x y hxy => Blind.pure ⟨rfl, h x y hxy⟩

theorem agree_throw [LawfulMonad M] (e : ε) : Agree (throw e : ExceptT ε M α) (throw e) :=
  Blind.pure (M := M) Both.error

end state

end combinators

section constructors

theorem agree_intern (n : Node) : Agree (Build.intern n) (Build.intern n) :=
  fun _ _ hs => ⟨hs.intern.2, hs.intern.1.symm⟩

theorem agree_node (t : TypeId) : Agree (Build.node t) (Build.node t) :=
  fun _ _ hs => ⟨hs, (hs.node t).symm⟩

/-- Computations that look at tags and record them. -/
theorem settle_quiet {m m' : Build α} (hm : ∀ s : Store, s.Alike (m s).2)
    (hm' : ∀ s : Store, s.Alike (m' s).2) : Settle m m' :=
  fun s s' hs => ⟨(hm s).symm.trans (hs.trans (hm' s')), trivial⟩

theorem settle_origin (p : Place) : Settle (Build.origin? p) (Build.origin? p) :=
  settle_quiet (fun s => .refl s) fun s => .refl s

theorem agree_quiet {m m' : Build Unit} (hm : ∀ s : Store, s.Alike (m s).2)
    (hm' : ∀ s : Store, s.Alike (m' s).2) : Agree m m' :=
  beside_mono (settle_quiet hm hm') fun _ _ _ => rfl

theorem agree_copyFieldOrigins (source target : TypeId) (names : List String) :
    Agree (Build.copyFieldOrigins source target names)
      (Build.copyFieldOrigins source target names) :=
  agree_quiet (fun s => Store.alike_copyFieldOrigins s source target names)
    fun s => Store.alike_copyFieldOrigins s source target names

/-- Recording tags, or none, at places of types and fields. -/
theorem agree_record {M : Type → Type} [Monad M] [MonadLiftT Build M] [LawfulMonadLiftT Build M]
    [Blind M] (p p' : Place) (tag tag' : Option SourceTag) :
    Agree (match tag with
      | some tag => liftM (Build.recordOrigin p tag)
      | none => pure () : M Unit)
      (match tag' with
      | some tag => liftM (Build.recordOrigin p' tag)
      | none => pure ()) := by
  have hquiet (p : Place) (tag : SourceTag) (s : Store) : s.Alike (Build.recordOrigin p tag s).2 :=
    Store.alike_recordOrigin s p tag
  have hpure (s : Store) : s.Alike ((pure () : Build Unit) s).2 := .refl s
  rw [← liftM_pure (m := Build) ()]
  cases tag with
  | none =>
      cases tag' with
      | none => exact agree_lift (agree_quiet hpure hpure)
      | some tag' => exact agree_lift (agree_quiet hpure (hquiet p' tag'))
  | some tag =>
      cases tag' with
      | none => exact agree_lift (agree_quiet (hquiet p tag) hpure)
      | some tag' => exact agree_lift (agree_quiet (hquiet p tag) (hquiet p' tag'))

/-- Recording a tag on the way makes no difference. -/
theorem agree_recorded {M : Type → Type} [Monad M] [LawfulMonad M] [MonadLiftT Build M]
    [LawfulMonadLiftT Build M] [Blind M] {m m' : M α} (h : Agree m m') (p : Place)
    (tag : SourceTag) : Agree (do Build.recordOrigin p tag; m) m' := by
  rw [← pure_bind () fun _ => m']
  exact agree_bind (agree_record p p (some tag) none) fun _ => h

theorem agree_literal (value : Literal) : Agree (Build.literal value) (Build.literal value) := by
  cases value with
  | string text => exact agree_intern _
  | number value => exact agree_intern _
  | boolean value => exact agree_pure _

theorem agree_inOrder (members : List TypeId) :
    Agree (Build.inOrder members) (Build.inOrder members) := by
  intro s s' hs
  refine ⟨hs, ?_⟩
  change TypeId.sortUnique _ _ = TypeId.sortUnique _ _
  rw [hs.numbers_eq]

theorem agree_ofMembers (none : TypeId) (node : List TypeId → Node) (members : List TypeId) :
    Agree (Build.ofMembers none node members) (Build.ofMembers none node members) := by
  unfold Build.ofMembers
  split
  · exact agree_pure _
  · exact agree_pure _
  · exact agree_intern _

theorem agree_rawUnion (members : List TypeId) :
    Agree (Build.rawUnion members) (Build.rawUnion members) :=
  agree_bind (agree_inOrder members) fun _ => agree_ofMembers _ _ _

theorem agree_rawIntersection (members : List TypeId) :
    Agree (Build.rawIntersection members) (Build.rawIntersection members) :=
  agree_bind (agree_inOrder members) fun _ => agree_ofMembers _ _ _

theorem agree_template (spans : List Span) : Agree (Build.template spans) (Build.template spans) := by
  unfold Build.template
  split
  · exact agree_intern _
  · exact agree_intern _
  · exact agree_intern _

end constructors

section reports

theorem same_push {ds ds' : Array Diagnostic} {d d' : Diagnostic} (h : Same ds ds')
    (hd : d.said = d'.said) : Same (ds.push d) (ds'.push d') := by
  change told (ds.push d).toList = told (ds'.push d').toList
  rw [told_push, told_push, hd, h]

theorem same_addNew {ds ds' : Array Diagnostic} {d d' : Diagnostic} (h : Same ds ds')
    (hd : d.said = d'.said) : Same (addNew ds d) (addNew ds' d') := by
  change told (addNew ds d).toList = told (addNew ds' d').toList
  rw [told_addNew, told_addNew, hd, h]

/-- Two lists of diagnostics that say the same, however long they are. -/
theorem same_foldl {add : Array Diagnostic → Diagnostic → Array Diagnostic}
    (hadd : ∀ ds d, told (add ds d).toList = insert d.said (told ds.toList))
    {ds ds' new new' : Array Diagnostic} (h : Same ds ds') (hnew : Same new new') :
    Same (new.toList.foldl add ds) (new'.toList.foldl add ds') := by
  change told (new.toList.foldl add ds).toList = told (new'.toList.foldl add ds').toList
  rw [told_foldl hadd, told_foldl hadd, h, hnew]

theorem agree_report {d d' : Diagnostic} (h : d.said = d'.said) :
    Agree (Reporting.report d) (Reporting.report d') :=
  agree_modify fun _ _ hds => same_push hds h

theorem agree_checkReport {d d' : Diagnostic} (h : d.said = d'.said) :
    Agree (Check.report d) (Check.report d') := by
  have hreport : ∀ d, Check.report d =
      modify fun c => { c with diagnostics := addNew c.diagnostics d } := by
    intro d
    unfold Check.report addNew
    congr
    funext c
    split <;> rfl
  rw [hreport, hreport]
  refine agree_modify ?_
  rintro c _ ⟨ds, rfl, hds⟩
  exact ⟨_, rfl, same_addNew hds h⟩

end reports

end Tags

end TypeResolution
