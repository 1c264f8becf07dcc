import TypeResolution.Assignability.Check

/-!
A failure is recorded exactly when a check fails. A check that answers `true` puts the recorded
failure back as it found it, whatever its alternatives have recorded on the way; one that answers
`false` has recorded a failure, so a refused pair is always explained.
-/

namespace TypeResolution

namespace Check

variable {α : Type}

/-- A step that leaves the recorded failure alone. -/
def Quiet (m : Check α) : Prop := ∀ c s, (m c s).1.2.failure = c.failure

/-- The recorded failure is kept when the answer is `true`; when it is `false` there is one. -/
structure Explains (m : Check Bool) : Prop where
  kept : ∀ c s, (m c s).1.1 = true → (m c s).1.2.failure = c.failure
  recorded : ∀ c s, (m c s).1.1 = false → (m c s).1.2.failure.isSome

/-- A failure that is recorded beforehand stays, or gives way to another one. -/
structure Refuses (m : Check Bool) : Prop where
  answer : ∀ c s, (m c s).1.1 = false
  recorded : ∀ c s, c.failure.isSome → (m c s).1.2.failure.isSome

section steps

variable {m k : Check Bool} {f : Bool → Check Bool} {reason : Failure}

theorem Quiet.bind {β : Type} {m : Check α} {f : α → Check β} (hm : Quiet m)
    (hf : ∀ a, Quiet (f a)) : Quiet (m >>= f) :=
  fun c s => (hf _ _ _).trans (hm c s)

theorem quiet_pure (a : α) : Quiet (pure a) := fun _ _ => rfl

theorem quiet_lift (m : Build α) : Quiet (liftM m) := fun _ _ => rfl

theorem quiet_modify {f : Checker → Checker} (hf : ∀ c, (f c).failure = c.failure) :
    Quiet (modify f : Check PUnit) :=
  fun c _ => hf c

theorem quiet_report (d : Diagnostic) : Quiet (Check.report d) := by
  apply quiet_modify
  intro c
  split <;> rfl

theorem quiet_reports (l : List Diagnostic) : Quiet (l.forM Check.report : Check PUnit) := by
  induction l with
  | nil => exact quiet_pure _
  | cons d rest ih => exact (quiet_report d).bind fun _ => ih

theorem Quiet.explains {m : Check α} {f : α → Check Bool} (hm : Quiet m)
    (hf : ∀ a, Explains (f a)) : Explains (m >>= f) where
  kept c s h := ((hf _).kept _ _ h).trans (hm c s)
  recorded _ _ h := (hf _).recorded _ _ h

theorem explains_true : Explains (pure true) where
  kept _ _ _ := rfl
  recorded _ _ (h : true = false) := by cases h

theorem explains_fail (reason : Failure) : Explains (fail reason) := by
  constructor
  · intro _ _ (h : false = true)
    cases h
  · intro c _ _
    change (c.failure.or (some reason)).isSome
    simp

theorem explains_failWith (reason : Failure) : Explains (failWith reason) where
  kept _ _ (h : false = true) := by cases h
  recorded _ _ _ := rfl

theorem explains_ite {p : Prop} [Decidable p] (hm : Explains m) (hk : Explains k) :
    Explains (if p then m else k) := by
  split
  · exact hm
  · exact hk

theorem refuses_false : Refuses (pure false) := ⟨fun _ _ => rfl, fun _ _ h => h⟩

theorem Explains.refuses (hm : Explains m) (h : ∀ c s, (m c s).1.1 = false) : Refuses m :=
  ⟨h, fun c s _ => hm.recorded c s (h c s)⟩

theorem Explains.cases (hm : Explains m) (ht : Explains (f true)) (hf : Refuses (f false)) :
    Explains (m >>= f) := by
  constructor
  · intro c s
    change (f (m c s).1.1 _ _).1.1 = true → (f (m c s).1.1 _ _).1.2.failure = _
    cases hanswer : (m c s).1.1 with
    | true => exact fun h => (ht.kept _ _ h).trans (hm.kept c s hanswer)
    | false => exact fun h => absurd (h.symm.trans (hf.answer _ _)) (by simp)
  · intro c s
    change (f (m c s).1.1 _ _).1.1 = false → (f (m c s).1.1 _ _).1.2.failure.isSome
    cases hanswer : (m c s).1.1 with
    | true => exact ht.recorded _ _
    | false => exact fun _ => hf.recorded _ _ (hm.recorded c s hanswer)

theorem Explains.orFail (hm : Explains m) (reason : Failure) :
    Explains (do if ← m then return true else fail reason) :=
  hm.cases explains_true ((explains_fail reason).refuses fun _ _ => rfl)

theorem Explains.orFailWith (hm : Explains m) (reason : Failure) :
    Explains (do if ← m then return true else failWith reason) :=
  hm.cases explains_true ((explains_failWith reason).refuses fun _ _ => rfl)

theorem explains_allM {l : List α} {f : α → Check Bool} (h : ∀ a, Explains (f a)) :
    Explains (l.allM f) := by
  induction l with
  | nil => exact explains_true
  | cons a rest ih => exact (h a).cases ih refuses_false

/-- The failures of the alternatives do not outlive a success: what was recorded before them is put
back. -/
theorem explains_alternatives (m : Check Bool) (reason : Failure) : Explains (do
    let saved ← clearFailure
    let found ← m
    restoreFailure saved
    if found then return true else fail reason) := by
  have hrun : ∀ c s, (do
      let saved ← clearFailure
      let found ← m
      restoreFailure saved
      if found then return true else fail reason : Check Bool) c s =
      (if (m { c with failure := none } s).1.1 then return true else fail reason : Check Bool)
        { (m { c with failure := none } s).1.2 with failure := c.failure }
        (m { c with failure := none } s).2 := fun _ _ => rfl
  have hrest : ∀ found, Explains (if found = true then return true else fail reason) :=
    fun _ => explains_ite explains_true (explains_fail reason)
  constructor
  · intro c s
    rw [hrun]
    exact (hrest _).kept _ _
  · intro c s
    rw [hrun]
    exact (hrest _).recorded _ _

end steps

section rules

variable {inner : Inner} {source target : TypeId}

theorem explains_againstEmptyObject : Explains (againstEmptyObject source target) :=
  (quiet_lift _).explains fun _ => explains_ite explains_true (explains_fail _)

theorem explains_literal (value : Literal) : Explains (literal source target value) :=
  explains_ite explains_true <| (quiet_lift _).explains fun _ =>
    explains_ite explains_true explains_againstEmptyObject

theorem explains_excess (a b : ObjectShape) : Explains (excess a b) := by
  unfold excess
  split
  · exact explains_fail _
  · exact explains_true

theorem explains_unionTarget (members : List TypeId) :
    Explains (unionTarget inner source members) :=
  explains_ite explains_true (explains_alternatives _ _)

/-- When no member fits, the failure recorded before is lost, but those of the members are not. -/
theorem explains_intersectionSource (members : List TypeId) :
    Explains (intersectionSource inner source target members) := by
  have hrun : ∀ c s, intersectionSource inner source target members c s =
      (if (members.anyM (inner · target) { c with failure := none } s).1.1 then do
          restoreFailure c.failure
          return true
        else fail (.typeMismatch source target) : Check Bool)
        (members.anyM (inner · target) { c with failure := none } s).1.2
        (members.anyM (inner · target) { c with failure := none } s).2 := fun _ _ => rfl
  constructor
  · intro c s
    rw [hrun]
    split
    · exact fun _ => rfl
    · exact nofun
  · intro c s
    rw [hrun]
    split
    · exact nofun
    · exact (explains_fail _).recorded _ _

variable (hi : ∀ source target, Explains (inner source target))

include hi

theorem explains_field (o : ObjectShape) (f : Field) : Explains (field inner o f) := by
  unfold field
  cases o.find? f.name with
  | none => exact explains_ite explains_true (explains_fail _)
  | some g => exact explains_ite (explains_fail _) ((hi _ _).orFailWith _)

theorem explains_index (o : ObjectShape) : Explains (index inner o target) := by
  refine (explains_allM fun g => (hi _ _).orFail _).cases ?_ refuses_false
  cases o.stringIndex with
  | none => exact explains_true
  | some t => exact (hi _ _).orFail _

theorem explains_object (o p : ObjectShape) : Explains (object inner o p) := by
  refine (explains_allM (explains_field hi o)).cases ?_ refuses_false
  cases p.stringIndex with
  | some t => exact explains_index hi o
  | none =>
      have hget : Quiet (get : Check Checker) := fun _ _ => rfl
      exact hget.explains fun _ => explains_ite (explains_excess o p) explains_true

theorem explains_function (f g : FunctionShape) : Explains (function inner f g) := by
  refine explains_ite (explains_fail _) ?_
  refine (explains_allM fun x => (hi _ _).orFail _).cases ?_ refuses_false
  change Explains (if g.result = .void then _ else _)
  exact explains_ite explains_true ((hi _ _).orFailWith _)

theorem explains_shapes (m n : Node) : Explains (shapes inner source target m n) := by
  unfold shapes
  split
  · exact explains_literal _
  · exact explains_ite explains_true explains_againstEmptyObject
  · exact explains_ite explains_true (explains_fail _)
  · exact explains_ite (explains_fail _) ((hi _ _).orFail _)
  · exact explains_object hi _ _
  · exact explains_function hi _ _
  · exact (hi _ _).orFail _
  · exact explains_againstEmptyObject
  · exact explains_againstEmptyObject
  · exact explains_fail _

theorem explains_structures : Explains (structures inner source target) := by
  refine (quiet_lift _).explains fun m => (quiet_lift _).explains fun n => ?_
  split
  · exact explains_allM fun t => hi t target
  · exact (hi _ _).cases (hi _ _) refuses_false
  · exact explains_unionTarget _
  · exact explains_allM (hi source)
  · exact explains_intersectionSource _
  · exact explains_shapes hi _ _

omit hi in
theorem quiet_resolve (nested : Nested) (t : TypeId) : Quiet (resolve nested t) := by
  refine (quiet_lift _).bind fun n => ?_
  split
  · refine (quiet_lift _).bind fun r => ?_
    obtain ⟨result, e⟩ := r
    refine Quiet.bind ?_ fun _ => ?_
    · obtain ⟨l⟩ := e.diagnostics
      rw [Array.forM_eq_forM, List.forM_toArray]
      exact quiet_reports l
    · cases result <;> exact quiet_pure _
  · exact quiet_pure t

theorem explains_rules (nested : Nested) : Explains (rules nested inner source target) := by
  apply explains_ite explains_true
  apply explains_ite explains_true
  apply explains_ite (explains_fail _)
  apply explains_ite explains_true
  refine (quiet_resolve nested source).explains fun a => ?_
  refine (quiet_resolve nested target).explains fun b => ?_
  exact explains_ite (explains_structures hi) (hi a b)

end rules

section pairs

variable {check : Inner} {source target : TypeId}

theorem quiet_reportDepthExceeded : Quiet (reportDepthExceeded source) := by
  have hget : Quiet (get : Check Checker) := fun _ _ => rfl
  refine hget.bind fun c => ?_
  split
  · exact quiet_pure _
  · have hmark : Quiet (modify ({ · with depthReported := true }) : Check PUnit) :=
      quiet_modify fun _ => rfl
    exact hmark.bind fun _ => hget.bind fun _ => (quiet_lift _).bind fun _ => quiet_report _

theorem explains_work (hc : Explains (check source target)) :
    Explains (work check source target) := by
  have hleave : Quiet (leave (source, target)) := quiet_modify fun _ => rfl
  have hremember : Quiet (modify fun c =>
      { c with failures := c.failures.insert (source, target) } : Check PUnit) :=
    quiet_modify fun _ => rfl
  refine hc.cases (hleave.explains fun _ => explains_true) ⟨fun _ _ => rfl, fun c s h => ?_⟩
  exact ((hleave.bind fun _ => hremember) c s).symm ▸ h

theorem explains_pair (hc : Explains (check source target)) :
    Explains (pair check source target) := by
  have hget : Quiet (get : Check Checker) := fun _ _ => rfl
  have henter : Quiet (enter (source, target)) := fun _ _ => rfl
  apply explains_ite explains_true
  refine hget.explains fun c => explains_ite (explains_fail _) ?_
  refine henter.explains fun answer => ?_
  cases answer with
  | entered => exact explains_work hc
  | cycle => exact explains_true
  | depthExceeded => exact quiet_reportDepthExceeded.explains fun _ => explains_fail _
  | iterationExceeded => exact quiet_reportDepthExceeded.explains fun _ => explains_fail _

theorem explains_subtypeAt (nested : Nested) (depth : Nat) (source target : TypeId) :
    Explains (subtypeAt nested depth source target) := by
  induction depth generalizing source target with
  | zero => exact explains_pair (explains_fail _)
  | succ depth ih => exact explains_pair (explains_rules ih nested)

end pairs

/-- A verdict and the failure that is recorded beside it. -/
inductive Explained (s : Store) (source target : TypeId) : Verdict → Option Failure → Prop
  | assignable : Explained s source target ⟨true, none⟩ none
  | refused {reason : Failure} {d : Diagnostic} : d.kind = .notAssignable →
      d.related = [⟨reason.location? s source target, reason.message s⟩] →
      Explained s source target ⟨false, some d⟩ (some reason)

theorem explains_isAssignable (nested : Nested) (source target : TypeId) (c : Checker) (s : Store) :
    ((isAssignable nested source target c s).1.1 = true →
      (isAssignable nested source target c s).1.2.failure = none) ∧
    ((isAssignable nested source target c s).1.1 = false →
      (isAssignable nested source target c s).1.2.failure.isSome) := by
  have hcheck := explains_subtypeAt nested (c.guard.maxDepth - c.guard.depth) source target
  exact ⟨hcheck.kept { c with failure := none } s, hcheck.recorded { c with failure := none } s⟩

section run

variable {nested : Nested} {source target : TypeId} {c c' : Checker} {s s' : Store}

theorem checkAssignable_of_true
    (h : isAssignable nested source target c s = ((true, c'), s')) :
    checkAssignable nested source target c s = ((⟨true, none⟩, c'), s') := by
  simp only [checkAssignable, bind, StateT.bind, h]
  rfl

theorem checkAssignable_of_false {reason : Failure}
    (h : isAssignable nested source target c s = ((false, c'), s'))
    (hreason : c'.failure = some reason) :
    checkAssignable nested source target c s =
      ((⟨false, some (((Diagnostic.of .notAssignable [s'.text source, s'.text target]).withLocation
        (s'.origin? (.type source))).withRelated (reason.location? s' source target)
          (reason.message s'))⟩, c'), s') := by
  obtain ⟨guard, excess, failures, failure, reported, ds⟩ := c'
  obtain rfl : failure = some reason := hreason
  simp only [checkAssignable, bind, StateT.bind, h]
  rfl

end run

/-- A verdict comes with an explanation exactly when it is negative, and a check changes the
recorded failure exactly when it fails. -/
theorem checkAssignable_explained (nested : Nested) (source target : TypeId) :
    (∀ c s, ∃ verdict,
      checkAssignable nested source target c s =
        ((verdict, (isAssignable nested source target c s).1.2),
          (isAssignable nested source target c s).2) ∧
      verdict.assignable = (isAssignable nested source target c s).1.1 ∧
      Explained (isAssignable nested source target c s).2 source target verdict
        (isAssignable nested source target c s).1.2.failure) ∧
    ∀ depth, Explains (subtypeAt nested depth source target) := by
  refine ⟨fun c s => ?_, fun depth => explains_subtypeAt nested depth source target⟩
  obtain ⟨hkept, hrecorded⟩ := explains_isAssignable nested source target c s
  generalize hrun : isAssignable nested source target c s = r at *
  obtain ⟨⟨answer, c'⟩, s'⟩ := r
  cases answer with
  | true =>
      refine ⟨_, checkAssignable_of_true hrun, rfl, ?_⟩
      rw [hkept rfl]
      exact .assignable
  | false =>
      obtain ⟨reason, hreason⟩ := Option.isSome_iff_exists.mp (hrecorded rfl)
      refine ⟨_, checkAssignable_of_false hrun hreason, rfl, ?_⟩
      rw [hreason]
      exact .refused rfl rfl

end Check

end TypeResolution
