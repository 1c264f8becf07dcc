import TypeResolution.Proofs.Tags.Evaluation
import TypeResolution.Proofs.Tags.Lowering
import TypeResolution.Session.Check

/-!
Requests and queries are answered the same whatever the source tags are. A request is compared in
two settings whose aliases are declared in different places, and a query with the query from which
all tags are erased.
-/

namespace TypeResolution

open Diagnostic

namespace Tags

section requests

variable {α : Type} {R : α → α → Prop} {setting setting' : Setting}

/-- Outcomes whose values belong together and whose diagnostics say the same. -/
structure SameOutcome (R : α → α → Prop) (o o' : Outcome α) : Prop where
  value : R o.value o'.value
  diagnostics : Same o.diagnostics o'.diagnostics

theorem beside_reportingOutcome {step step' : Reporting α} (h : Beside R step step') :
    Beside (SameOutcome R) step.outcome step'.outcome :=
  Blind.bind (h #[] #[] rfl) fun _ _ hab => Blind.pure ⟨hab.1, hab.2⟩

variable (hset : SameSetting setting setting')

include hset

theorem beside_evaluateRequest (patience : Option Nat) (t : TypeId) :
    Beside (SameOutcome (Both Eq)) (setting.evaluate patience t) (setting'.evaluate patience t) := by
  have hstart : Same (setting.evaluator patience) (setting'.evaluator patience) := by
    rw [Setting.evaluator, Setting.evaluator, hset.options]
    exact same_refl _
  refine Blind.bind (agree_evaluateNormalized hset t _ _ hstart) ?_
  rintro ⟨r, e⟩ ⟨r', e'⟩ ⟨hr, ds, rfl, hds⟩
  exact Blind.pure ⟨hr, hds⟩

theorem beside_checkRequest (source target : TypeId) :
    Beside (SameOutcome SameVerdict) (setting.checkAssignable source target)
      (setting'.checkAssignable source target) := by
  refine Blind.bind (beside_checkAssignable (sameNested_nested hset 0) source target _ _
    (same_checker hset)) ?_
  rintro ⟨v, c⟩ ⟨v', c'⟩ ⟨hv, ds, rfl, hds⟩
  exact Blind.pure ⟨hv, hds⟩

theorem beside_narrowRequest (t : TypeId) (guard : TypeGuard) (branch : Branch) :
    Beside (SameOutcome Eq) (setting.narrow t guard branch) (setting'.narrow t guard branch) :=
  beside_reportingOutcome (agree_narrow hset branch t guard)

theorem beside_typeArgumentsRequest (typeParams : List TypeParam) (params args : List TypeId) :
    Beside (SameOutcome Eq) (setting.typeArguments typeParams params args)
      (setting'.typeArguments typeParams params args) := by
  unfold Setting.typeArguments
  rw [hset.options]
  exact beside_reportingOutcome (agree_typeArguments hset.environment _ _ _ _)

end requests

section lowering

open Lowering

theorem agree_optionLower (e : Option TypeExpr) (scope : TypeScope) :
    Agree (e.mapM (·.lower scope)) ((untaggedOption e).mapM (·.lower scope)) := by
  cases e with
  | none => exact agree_pure _
  | some e =>
      simp only [untaggedOption, Option.mapM_some, map_eq_pure_bind]
      exact agree_bind (agree_lower e scope) fun _ => agree_pure _

theorem agree_bindParams (params : List ParamExpr) (scope : TypeScope) :
    Agree (bindParams params scope) (bindParams (params.map (·.untagged)) scope) := by
  have hnames : (params.map (·.untagged)).map (·.name) = params.map (·.name) := by
    rw [List.map_map]
    rfl
  unfold bindParams
  rw [hnames]
  refine agree_bind (agree_lift (agree_bindNames _ scope)) fun bare => ?_
  refine agree_bind (agree_mapM_map (fun p => ?_) params) fun infos => ?_
  · refine agree_bind (agree_optionLower p.constraint bare) fun constraint => ?_
    exact agree_bind (agree_optionLower p.default bare) fun _ => agree_pure _
  refine agree_bind (agree_foldlM (fun scope info => ?_) _) fun _ => agree_pure _
  exact agree_bind (agree_lift (agree_intern _)) fun _ => agree_pure _

theorem beside_lowerAlias (a : AliasExpr) (scope : TypeScope) :
    Beside SameAlias (a.lower scope) (a.untagged.lower scope) := by
  refine agree_bind (agree_bindParams a.params scope) fun x => ?_
  exact agree_bind (agree_lower a.body x.2) fun body => Blind.pure ⟨rfl, rfl, rfl⟩

theorem agree_lowerGuard (guard : GuardExpr) (scope : TypeScope) :
    Agree (guard.lower scope) (guard.untagged.lower scope) := by
  cases guard with
  | typeof _ | nullishEquality | truthy | inProperty _ => exact agree_pure _
  | literalEquality value | discriminant _ value | predicate value =>
      exact agree_bind (agree_lower value scope) fun _ => agree_pure _

end lowering

section queries

open Session

variable {α : Type} {R : α → α → Prop} {setting setting' : Setting} {cancelled : Bool}

/-- A reason for a failure says the same wherever it points. -/
theorem same_toArray {d d' : Option Diagnostic} (h : d'.map said = d.map said) :
    Same d.toArray d'.toArray := by
  change told d.toArray.toList = told d'.toArray.toList
  cases d with
  | none =>
      rw [Option.map_none, Option.map_eq_none_iff] at h
      rw [h]
  | some d =>
      rw [Option.map_some, Option.map_eq_some_iff] at h
      obtain ⟨d', rfl, hd⟩ := h
      simp [hd]

theorem agree_sessionRecord {ds ds' : Array Diagnostic} (h : Same ds ds') :
    Agree (Session.record ds) (Session.record ds') := by
  intro x y hxy
  refine Blind.pure ⟨.ok rfl, ?_⟩
  change told (x ++ ds).toList = told (y ++ ds').toList
  rw [Array.toList_append, Array.toList_append, told_append, told_append, hxy, h]

theorem beside_keep {step step' : Build (Outcome α)} (h : Beside (SameOutcome R) step step') :
    Beside R (keep step) (keep step') :=
  Blind.bind (Blind.lift h) fun _ _ ho =>
    agree_bind (agree_sessionRecord ho.diagnostics) fun _ => Blind.pure ho.value

theorem agree_display (t : TypeId) : Agree (display t) (display t) := agree_lift (agree_text t)

theorem beside_lowering {m m' : Lowering α} (h : Beside R m m') :
    Beside R (liftM m : Checking α) (liftM m') := by
  have hstate : Beside R (liftM m : StateT (Array Diagnostic) Lowering α) (liftM m') :=
    beside_stateLift h
  change Beside (Both R) (Except.ok <$> (liftM m : StateT (Array Diagnostic) Lowering α))
    (Except.ok <$> (liftM m' : StateT (Array Diagnostic) Lowering α))
  simp only [map_eq_pure_bind]
  exact Blind.bind hstate fun _ _ hab => Blind.pure (.ok hab)

theorem agree_lowerExpr (e : TypeExpr) : Agree (lowerExpr e) (lowerExpr e.untagged) :=
  beside_lowering (agree_lower e [])

section

variable (hset : SameSetting setting setting')

include hset

theorem agree_sessionEvaluate (t : TypeId) :
    Agree (Session.evaluate setting cancelled t) (Session.evaluate setting' cancelled t) := by
  refine Blind.bind (beside_keep (beside_evaluateRequest hset _ t)) fun r r' hr => ?_
  cases hr with
  | ok h =>
      subst h
      exact agree_pure _
  | error => exact agree_throw _

theorem beside_excess (excess : Bool) (source target : TypeId) :
    Beside SameVerdict
      (keep (Setting.checkAssignable
        { setting with options := { setting.options with excessPropertyCheck := excess } }
        source target))
      (keep (Setting.checkAssignable
        { setting' with options := { setting'.options with excessPropertyCheck := excess } }
        source target)) := by
  have hexcess : SameSetting
      { setting with options := { setting.options with excessPropertyCheck := excess } }
      { setting' with options := { setting'.options with excessPropertyCheck := excess } } :=
    ⟨hset.environment, by rw [hset.options]⟩
  exact beside_keep (beside_checkRequest hexcess source target)

theorem agree_runAssignable (source target : TypeExpr) (excess : Option Bool) :
    Agree (run setting cancelled (.assignable source target excess))
      (run setting' cancelled (.assignable source.untagged target.untagged excess)) := by
  refine agree_bind (agree_lowerExpr source) fun source => ?_
  refine agree_bind (agree_lowerExpr target) fun target => ?_
  have hdefault : setting'.options.excessPropertyCheck = setting.options.excessPropertyCheck := by
    rw [hset.options]
  rw [hdefault]
  refine Blind.bind (beside_excess hset _ source target) fun v v' hv => ?_
  refine agree_bind (agree_sessionRecord (same_toArray hv.reason)) fun _ => ?_
  rw [hv.assignable]
  exact agree_pure _

theorem agree_run (q : Query) :
    Agree (run setting cancelled q) (run setting' cancelled q.untagged) := by
  cases q with
  | evaluate type =>
      refine agree_bind (agree_lowerExpr type) fun t => ?_
      refine agree_bind (agree_sessionEvaluate hset t) fun t => ?_
      exact agree_bind (agree_display t) fun _ => agree_pure _
  | assignable source target excess => exact agree_runAssignable hset source target excess
  | narrow type guard branch =>
      refine agree_bind (beside_lowering (agree_lowerGuard guard [])) fun guard => ?_
      refine agree_bind (agree_lowerExpr type) fun t => ?_
      refine agree_bind (beside_keep (beside_narrowRequest hset t guard branch)) fun t => ?_
      exact agree_bind (agree_display t) fun _ => agree_pure _
  | inferCall typeParams params args =>
      refine agree_bind (beside_lowering (agree_bindParams typeParams [])) fun x => ?_
      refine agree_bind (beside_lowering (agree_lowerAll params x.2)) fun params => ?_
      refine agree_bind (beside_lowering (agree_lowerAll args [])) fun args => ?_
      refine agree_bind (beside_keep (beside_typeArgumentsRequest hset x.1 params args)) fun ts => ?_
      exact agree_bind (agree_mapM agree_display) fun _ => agree_pure _

end

end queries

end Tags

end TypeResolution
