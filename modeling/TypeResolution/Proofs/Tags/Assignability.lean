import TypeResolution.Proofs.Tags.Types

/-!
Assignability gives the same verdict whatever the source tags are, and explains it in the same
words, if the checks of components and the nested evaluations agree.
-/

namespace TypeResolution.Tags

open Diagnostic

section check

open Check

variable {inner inner' : Check.Inner} {nested nested' : Nested} {source target : TypeId}

theorem agree_checkModify {f : Checker → Checker}
    (hf : ∀ c ds, f { c with diagnostics := ds } = { f c with diagnostics := ds })
    (hkept : ∀ c, (f c).diagnostics = c.diagnostics) :
    Agree (modify f : Check PUnit) (modify f) := by
  refine agree_modify ?_
  rintro c _ ⟨ds, rfl, hds⟩
  refine ⟨ds, hf c ds, ?_⟩
  rw [hkept]
  exact hds

theorem agree_fail (reason : Failure) : Agree (fail reason) (fail reason) :=
  agree_bind (agree_checkModify (fun _ _ => rfl) fun _ => rfl) fun _ => agree_pure _

theorem agree_failWith (reason : Failure) : Agree (failWith reason) (failWith reason) :=
  agree_bind (agree_checkModify (fun _ _ => rfl) fun _ => rfl) fun _ => agree_pure _

theorem agree_clearFailure : Agree clearFailure clearFailure := by
  rintro c _ ⟨ds, rfl, hds⟩
  exact Blind.pure ⟨rfl, ds, rfl, hds⟩

theorem agree_restoreFailure (saved : Option Failure) :
    Agree (restoreFailure saved) (restoreFailure saved) :=
  agree_checkModify (fun _ _ => rfl) fun _ => rfl

theorem agree_orFail {m m' : Check Bool} (h : Agree m m') (reason : Failure) :
    Agree (do if ← m then return true else fail reason)
      (do if ← m' then return true else fail reason) :=
  agree_bind h fun _ => beside_ite (agree_pure _) (agree_fail reason)

theorem agree_againstEmptyObject :
    Agree (againstEmptyObject source target) (againstEmptyObject source target) := by
  refine beside_store fun s s' hs => ?_
  rw [hs.isEmptyObject]
  exact beside_ite (agree_pure _) (agree_fail _)

theorem agree_literalCheck (value : Literal) :
    Agree (literal source target value) (literal source target value) := by
  refine beside_ite (agree_pure _) (beside_store fun s s' hs => ?_)
  rw [hs.node, hs.describes]
  exact beside_ite (agree_pure _) agree_againstEmptyObject

theorem agree_excess (source target : ObjectShape) :
    Agree (excess source target) (excess source target) := by
  unfold excess
  split
  · exact agree_fail _
  · exact agree_pure _

section components

variable (hi : ∀ source target, Agree (inner source target) (inner' source target))

include hi

theorem agree_unionTarget (members : List TypeId) :
    Agree (unionTarget inner source members) (unionTarget inner' source members) := by
  refine beside_ite (agree_pure _) ?_
  refine agree_bind agree_clearFailure fun saved => ?_
  refine agree_bind (agree_anyM (hi source)) fun found => ?_
  refine agree_bind (agree_restoreFailure saved) fun _ => ?_
  exact beside_ite (agree_pure _) (agree_fail _)

theorem agree_intersectionSource (members : List TypeId) :
    Agree (intersectionSource inner source target members)
      (intersectionSource inner' source target members) := by
  refine agree_bind agree_clearFailure fun saved => ?_
  refine agree_bind (agree_anyM fun t => hi t target) fun found => ?_
  refine beside_ite ?_ (agree_fail _)
  exact agree_bind (agree_restoreFailure saved) fun _ => agree_pure _

theorem agree_field (shape : ObjectShape) (f : Field) :
    Agree (field inner shape f) (field inner' shape f) := by
  unfold field
  cases shape.find? f.name with
  | none => exact beside_ite (agree_pure _) (agree_fail _)
  | some g =>
      refine beside_ite (agree_fail _) ?_
      exact agree_bind (hi _ _) fun _ => beside_ite (agree_pure _) (agree_failWith _)

theorem agree_index (shape : ObjectShape) :
    Agree (index inner shape target) (index inner' shape target) := by
  refine agree_bind (agree_allM fun g => agree_orFail (hi _ _) _) fun fields => ?_
  refine beside_ite (agree_pure _) ?_
  cases shape.stringIndex with
  | none => exact agree_pure _
  | some t => exact agree_orFail (hi _ _) _

theorem agree_objectCheck (source target : ObjectShape) :
    Agree (object inner source target) (object inner' source target) := by
  refine agree_bind (agree_allM (agree_field hi source)) fun fields => ?_
  refine beside_ite ?_ (agree_pure _)
  cases target.stringIndex with
  | some t => exact agree_index hi source
  | none =>
      refine Blind.bind beside_get ?_
      rintro c _ ⟨ds, rfl, _⟩
      exact beside_ite (agree_excess _ _) (agree_pure _)

theorem agree_functionCheck (source target : FunctionShape) :
    Agree (function inner source target) (function inner' source target) := by
  refine beside_ite (agree_fail _) ?_
  refine agree_bind (agree_allM fun x => agree_orFail (hi _ _) _) fun params => ?_
  refine beside_ite (agree_pure _) (beside_ite (agree_pure _) ?_)
  exact agree_bind (hi _ _) fun _ => beside_ite (agree_pure _) (agree_failWith _)

theorem agree_shapes (m n : Node) :
    Agree (shapes inner source target m n) (shapes inner' source target m n) := by
  unfold shapes
  split
  · exact agree_literalCheck _
  · exact beside_ite (agree_pure _) agree_againstEmptyObject
  · exact beside_ite (agree_pure _) (agree_fail _)
  · exact beside_ite (agree_fail _) (agree_orFail (hi _ _) _)
  · exact agree_objectCheck hi _ _
  · exact agree_functionCheck hi _ _
  · exact agree_orFail (hi _ _) _
  · exact agree_againstEmptyObject
  · exact agree_againstEmptyObject
  · exact agree_fail _

theorem agree_structures : Agree (structures inner source target) (structures inner' source target) := by
  refine agree_bind (agree_lift (agree_node source)) fun m => ?_
  refine agree_bind (agree_lift (agree_node target)) fun n => ?_
  split
  · exact agree_allM fun t => hi t target
  · exact agree_bind (hi _ _) fun _ => beside_ite (hi _ _) (agree_pure _)
  · exact agree_unionTarget hi _
  · exact agree_allM (hi source)
  · exact agree_intersectionSource hi _
  · exact agree_shapes hi _ _

theorem agree_work : Agree (work inner source target) (work inner' source target) := by
  refine agree_bind (hi _ _) fun result => ?_
  refine agree_bind (agree_checkModify (fun _ _ => rfl) fun _ => rfl) fun _ => ?_
  refine beside_ite (agree_pure _) ?_
  exact agree_bind (agree_checkModify (fun _ _ => rfl) fun _ => rfl) fun _ => agree_pure _

omit hi in
theorem agree_checkDepthExceeded :
    Agree (Check.reportDepthExceeded source) (Check.reportDepthExceeded source) := by
  refine Blind.bind beside_get ?_
  rintro c _ ⟨ds, rfl, _⟩
  refine beside_ite (agree_pure _) ?_
  refine agree_bind (agree_checkModify (fun _ _ => rfl) fun _ => rfl) fun _ => ?_
  refine Blind.bind beside_get ?_
  rintro c _ ⟨ds, rfl, _⟩
  exact settle_bind (Blind.lift (settle_origin _)) fun _ _ => agree_checkReport (by simp)

theorem agree_pair (source target : TypeId) :
    Agree (pair inner source target) (pair inner' source target) := by
  have hlimit : Agree (do Check.reportDepthExceeded source; fail (.typeMismatch source target))
      (do Check.reportDepthExceeded source; fail (.typeMismatch source target)) :=
    agree_bind agree_checkDepthExceeded fun _ => agree_fail _
  have henter : Agree (Check.enter (source, target)) (Check.enter (source, target)) := by
    rintro c _ ⟨ds, rfl, hds⟩
    exact Blind.pure ⟨rfl, ds, rfl, hds⟩
  refine beside_ite (agree_pure _) (Blind.bind beside_get ?_)
  rintro c _ ⟨ds, rfl, _⟩
  refine beside_ite (agree_fail _) (agree_bind henter fun answer => ?_)
  cases answer with
  | entered => exact agree_work hi
  | cycle => exact agree_pure _
  | depthExceeded => exact hlimit
  | iterationExceeded => exact hlimit

end components

/-- Nested evaluations that agree, from the same start. -/
structure SameNested (nested nested' : Nested) : Prop where
  evaluate : ∀ t, Agree (nested.evaluate t) (nested'.evaluate t)
  start : nested'.start = nested.start

theorem same_refl (e : Evaluator) : Same e e := ⟨e.diagnostics, rfl, rfl⟩

/-- Diagnostics that say the same are reported alike, however many they are. -/
theorem agree_checkReports {ds ds' : Array Diagnostic} (h : Same ds ds') :
    Agree (ds.forM Check.report) (ds'.forM Check.report) := by
  have hrun : ∀ (l : List Diagnostic) (c : Checker) (s : Store), l.forM Check.report c s =
      (((), { c with diagnostics := l.foldl addNew c.diagnostics }), s) := by
    intro l
    induction l with
    | nil => exact fun _ _ => rfl
    | cons d rest ih =>
        intro c s
        have hreport : Check.report d c s =
            (((), { c with diagnostics := addNew c.diagnostics d }), s) := by
          change (((), if c.diagnostics.contains d then c
            else { c with diagnostics := c.diagnostics.push d }), s) = _
          unfold addNew
          split <;> rfl
        change rest.forM Check.report (Check.report d c s).1.2 (Check.report d c s).2 = _
        rw [hreport, ih]
        rfl
  rintro c _ ⟨ds₀, rfl, hds⟩ s s' hs
  have harray : ∀ (ds : Array Diagnostic) (c : Checker) (s : Store),
      (ds.forM Check.report : Check PUnit) c s =
        (((), { c with diagnostics := ds.toList.foldl addNew c.diagnostics }), s) := by
    rintro ⟨l⟩ c s
    rw [Array.forM_eq_forM, List.forM_toArray]
    exact hrun l c s
  rw [harray, harray]
  exact ⟨hs, rfl, _, rfl, same_foldl told_addNew hds h⟩

variable (hn : SameNested nested nested')

include hn

theorem agree_resolve (t : TypeId) : Agree (resolve nested t) (resolve nested' t) := by
  refine agree_bind (agree_lift (agree_node t)) fun n => ?_
  refine beside_ite ?_ (agree_pure _)
  have hrun := hn.evaluate t nested.start nested'.start (hn.start ▸ same_refl _)
  refine Blind.bind (Blind.lift hrun) ?_
  rintro ⟨r, e⟩ ⟨r', e'⟩ ⟨hr, ds, rfl, hds⟩
  refine agree_bind (agree_checkReports hds) fun _ => ?_
  cases hr with
  | ok h =>
      subst h
      exact agree_pure _
  | error => exact agree_pure _

theorem agree_rules (hi : ∀ source target, Agree (inner source target) (inner' source target))
    (source target : TypeId) :
    Agree (rules nested inner source target) (rules nested' inner' source target) := by
  refine beside_ite (agree_pure _) (beside_ite (agree_pure _) (beside_ite (agree_fail _) ?_))
  refine beside_ite (agree_pure _) ?_
  refine agree_bind (agree_resolve hn source) fun resolvedSource => ?_
  refine agree_bind (agree_resolve hn target) fun resolvedTarget => ?_
  exact beside_ite (agree_structures hi) (hi _ _)

theorem agree_subtypeAt (depth : Nat) (source target : TypeId) :
    Agree (subtypeAt nested depth source target) (subtypeAt nested' depth source target) := by
  induction depth generalizing source target with
  | zero => exact agree_pair (fun _ _ => agree_fail _) _ _
  | succ depth ih => exact agree_pair (agree_rules hn ih) _ _

theorem agree_isAssignable (source target : TypeId) :
    Agree (Check.isAssignable nested source target) (Check.isAssignable nested' source target) := by
  refine agree_bind (agree_restoreFailure none) fun _ => Blind.bind beside_get ?_
  rintro c _ ⟨ds, rfl, _⟩
  exact agree_subtypeAt hn _ _ _

/-- Verdicts that explain a failure in the same words. -/
structure SameVerdict (v v' : Verdict) : Prop where
  assignable : v'.assignable = v.assignable
  reason : v'.reason.map said = v.reason.map said

theorem beside_checkAssignable (source target : TypeId) :
    Beside SameVerdict (Check.checkAssignable nested source target)
      (Check.checkAssignable nested' source target) := by
  refine agree_bind (agree_isAssignable hn source target) fun b => ?_
  refine beside_ite (Blind.pure ⟨rfl, rfl⟩) ?_
  refine beside_store fun s s' hs => Blind.bind beside_get ?_
  rintro c _ ⟨ds, rfl, _⟩
  rw [hs.text]
  cases c.failure <;> exact Blind.pure ⟨rfl, by simp only [Option.map_some, said_withRelated,
    said_withLocation]⟩

end check

end TypeResolution.Tags
