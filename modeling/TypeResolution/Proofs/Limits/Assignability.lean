import TypeResolution.Proofs.Limits.Together

/-!
Checks side by side. The rules of assignability keep two runs together, if the checks of components
and the nested evaluations do; a pair keeps them together across the guard.
-/

namespace TypeResolution.Limits

open Recursion Check

variable {D : Diagnostic → Prop} {H H₁ : GuardRel (TypeId × TypeId)} {α : Type}

/-- Two checkers that differ only in their guards. A diagnostic in `D` marks the first one. -/
def checkers (D : Diagnostic → Prop) (H : GuardRel (TypeId × TypeId)) : Coupling Checker where
  rel c c' := ∃ g, c' = { c with guard := g } ∧ H c.guard g c.depthReported
  marked c := ∃ d ∈ c.diagnostics, D d

/-- A nested evaluation reports a marked diagnostic, or both give the same type, make the same
types and report the same diagnostics. -/
def NestedTogether (D : Diagnostic → Prop) (nested nested' : Nested) : Prop :=
  ∀ t s, (∃ d ∈ (nested.evaluate t nested.start s).1.2.diagnostics, D d) ∨
    (nested'.evaluate t nested'.start s).1.1 = (nested.evaluate t nested.start s).1.1 ∧
    (nested'.evaluate t nested'.start s).2 = (nested.evaluate t nested.start s).2 ∧
    (nested'.evaluate t nested'.start s).1.2.diagnostics =
      (nested.evaluate t nested.start s).1.2.diagnostics

section state

theorem together_checkGet {f f' : Checker → Check α}
    (h : ∀ c g, Together (checkers D H) (f c) (f' { c with guard := g })) :
    Together (checkers D H) (get >>= f) (get >>= f') := by
  refine together_get (fun c c' => ∃ g, c' = { c with guard := g }) (fun c => ⟨_, rfl⟩)
    ?_ ?_
  · rintro c c' ⟨g, rfl, _⟩
    exact ⟨g, rfl⟩
  · rintro c _ ⟨g, rfl⟩
    exact h c g

theorem together_checkModify {f : Checker → Checker}
    (hguard : ∀ c g, f { c with guard := g } = { f c with guard := g })
    (hkept : ∀ c, (f c).guard = c.guard ∧ (f c).depthReported = c.depthReported)
    (hgrow : ∀ c, ∀ d ∈ c.diagnostics, d ∈ (f c).diagnostics) :
    Together (checkers D H) (modify f : Check PUnit) (modify f) := by
  refine together_modify (fun c hc => ?_) ?_
  · obtain ⟨d, hd, hD⟩ := hc
    exact ⟨d, hgrow c d hd, hD⟩
  · rintro c _ ⟨g, rfl, hg⟩
    refine ⟨g, hguard c g, ?_⟩
    rw [(hkept c).1, (hkept c).2]
    exact hg

theorem together_checkReport (d : Diagnostic) :
    Together (checkers D H) (Check.report d) (Check.report d) := by
  refine together_checkModify (fun c g => ?_) (fun c => ?_) fun c => ?_
  · dsimp only
    split <;> rfl
  · split <;> exact ⟨rfl, rfl⟩
  · split
    · exact fun d hd => hd
    · exact fun d hd => Array.mem_push_of_mem _ hd

theorem mem_checkReport (d : Diagnostic) (c : Checker) (s : Store) :
    d ∈ (Check.report d c s).1.2.diagnostics := by
  change d ∈ (if c.diagnostics.contains d then c
    else { c with diagnostics := c.diagnostics.push d }).diagnostics
  split
  · exact Array.contains_iff_mem.mp ‹_›
  · exact Array.mem_push_self

/-- Reporting a marked diagnostic, among others, marks the checker. -/
theorem marked_checkReports {ds : Array Diagnostic} (h : ∃ d ∈ ds, D d) (c : Checker) (s : Store) :
    (checkers D H).marked ((ds.forM Check.report : Check PUnit) c s).1.2 := by
  obtain ⟨l⟩ := ds
  rw [Array.forM_eq_forM, List.forM_toArray]
  have hstays : ∀ l : List Diagnostic, Together (checkers D H) (l.forM Check.report)
      (l.forM Check.report) := fun l => together_forM together_checkReport
  obtain ⟨d, hd, hD⟩ := h
  replace hd : d ∈ l := List.mem_toArray.mp hd
  induction l generalizing c s with
  | nil => cases hd
  | cons a rest ih =>
      rcases List.mem_cons.mp hd with rfl | hd
      · exact (hstays rest).stays _ _ ⟨d, mem_checkReport d c s, hD⟩
      · exact ih _ _ hd

theorem together_fail (reason : Failure) : Together (checkers D H) (fail reason) (fail reason) :=
  Pairs.bind (together_checkModify (fun _ _ => rfl) (fun _ => ⟨rfl, rfl⟩) fun _ _ h => h) fun _ =>
    Pairs.pure false

theorem together_failWith (reason : Failure) :
    Together (checkers D H) (failWith reason) (failWith reason) :=
  Pairs.bind (together_checkModify (fun _ _ => rfl) (fun _ => ⟨rfl, rfl⟩) fun _ _ h => h) fun _ =>
    Pairs.pure false

theorem together_clearFailure : Together (checkers D H) clearFailure clearFailure where
  stays _ _ h := h
  same := by
    rintro c _ s ⟨g, rfl, hg⟩
    exact .inr ⟨rfl, rfl, g, rfl, hg⟩

theorem together_restoreFailure (saved : Option Failure) :
    Together (checkers D H) (restoreFailure saved) (restoreFailure saved) :=
  together_checkModify (fun _ _ => rfl) (fun _ => ⟨rfl, rfl⟩) fun _ _ h => h

theorem together_orFail {m m' : Check Bool} (h : Together (checkers D H) m m') (reason : Failure) :
    Together (checkers D H) (do if ← m then return true else fail reason)
      (do if ← m' then return true else fail reason) :=
  Pairs.bind h fun _ => together_ite (Pairs.pure true) (together_fail reason)

end state

section rules

variable {inner inner' : Check.Inner} {source target : TypeId}
  (hi : ∀ source target, Together (checkers D H) (inner source target) (inner' source target))

theorem together_againstEmptyObject :
    Together (checkers D H) (againstEmptyObject source target) (againstEmptyObject source target) :=
  together_store fun _ => together_ite (Pairs.pure true) (together_fail _)

theorem together_literal (value : Literal) :
    Together (checkers D H) (literal source target value) (literal source target value) :=
  together_ite (Pairs.pure true) <| together_store fun _ =>
    together_ite (Pairs.pure true) together_againstEmptyObject

theorem together_excess (a b : ObjectShape) :
    Together (checkers D H) (excess a b) (excess a b) := by
  unfold excess
  split
  · exact together_fail _
  · exact Pairs.pure true

include hi

theorem together_unionTarget (members : List TypeId) :
    Together (checkers D H) (unionTarget inner source members)
      (unionTarget inner' source members) := by
  refine together_ite (Pairs.pure true) ?_
  refine Pairs.bind together_clearFailure fun saved => ?_
  refine Pairs.bind (together_anyM (hi source)) fun found => ?_
  refine Pairs.bind (together_restoreFailure saved) fun _ => ?_
  exact together_ite (Pairs.pure true) (together_fail _)

theorem together_intersectionSource (members : List TypeId) :
    Together (checkers D H) (intersectionSource inner source target members)
      (intersectionSource inner' source target members) := by
  refine Pairs.bind together_clearFailure fun saved => ?_
  refine Pairs.bind (together_anyM fun t => hi t target) fun found => ?_
  refine together_ite ?_ (together_fail _)
  exact Pairs.bind (together_restoreFailure saved) fun _ => Pairs.pure true

theorem together_field (shape : ObjectShape) (f : Field) :
    Together (checkers D H) (field inner shape f) (field inner' shape f) := by
  unfold field
  cases shape.find? f.name with
  | none => exact together_ite (Pairs.pure true) (together_fail _)
  | some g =>
      refine together_ite (together_fail _) ?_
      exact Pairs.bind (hi _ _) fun _ => together_ite (Pairs.pure true) (together_failWith _)

theorem together_index (shape : ObjectShape) :
    Together (checkers D H) (index inner shape target) (index inner' shape target) := by
  refine Pairs.bind (together_allM fun g => together_orFail (hi _ _) _) fun fields => ?_
  refine together_ite (Pairs.pure false) ?_
  cases shape.stringIndex with
  | none => exact Pairs.pure true
  | some t => exact together_orFail (hi _ _) _

theorem together_object (a b : ObjectShape) :
    Together (checkers D H) (object inner a b) (object inner' a b) := by
  refine Pairs.bind (together_allM (together_field hi a)) fun fields => ?_
  refine together_ite ?_ (Pairs.pure false)
  cases b.stringIndex with
  | some t => exact together_index hi a
  | none => exact together_checkGet fun c g => together_ite (together_excess a b) (Pairs.pure true)

theorem together_function (a b : FunctionShape) :
    Together (checkers D H) (function inner a b) (function inner' a b) := by
  refine together_ite (together_fail _) ?_
  refine Pairs.bind (together_allM fun x => together_orFail (hi _ _) _) fun params => ?_
  refine together_ite (Pairs.pure false) (together_ite (Pairs.pure true) ?_)
  exact Pairs.bind (hi _ _) fun _ => together_ite (Pairs.pure true) (together_failWith _)

theorem together_shapes (m n : Node) :
    Together (checkers D H) (shapes inner source target m n) (shapes inner' source target m n) := by
  unfold shapes
  split
  · exact together_literal _
  · exact together_ite (Pairs.pure true) together_againstEmptyObject
  · exact together_ite (Pairs.pure true) (together_fail _)
  · exact together_ite (together_fail _) (together_orFail (hi _ _) _)
  · exact together_object hi _ _
  · exact together_function hi _ _
  · exact together_orFail (hi _ _) _
  · exact together_againstEmptyObject
  · exact together_againstEmptyObject
  · exact together_fail _

theorem together_structures :
    Together (checkers D H) (structures inner source target) (structures inner' source target) := by
  refine Pairs.bind (Pairs.lift _) fun m => Pairs.bind (Pairs.lift _) fun n => ?_
  split
  · exact together_allM fun t => hi t target
  · exact Pairs.bind (hi _ _) fun _ => together_ite (hi _ _) (Pairs.pure false)
  · exact together_unionTarget hi _
  · exact together_allM (hi source)
  · exact together_intersectionSource hi _
  · exact together_shapes hi _ _

end rules

section nested

variable {nested nested' : Nested} {inner inner' : Check.Inner} (hn : NestedTogether D nested nested')

include hn

omit hn in
theorem together_answer (t : TypeId) (result : Except Cancelled TypeId) :
    Together (checkers D H)
      (match result with
        | .ok t => return t
        | .error _ => return t : Check TypeId)
      (match result with
        | .ok t => return t
        | .error _ => return t) := by
  cases result <;> exact Pairs.pure _

theorem together_resolve (t : TypeId) :
    Together (checkers D H) (resolve nested t) (resolve nested' t) := by
  refine Pairs.bind (Pairs.lift _) fun n => together_ite ?_ (Pairs.pure t)
  have hanswer := together_answer (D := D) (H := H) t
  have hrest : ∀ ds result, Together (checkers D H) _ _ := fun ds result =>
    Pairs.bind (together_arrayForM (l := ds) together_checkReport) fun _ => hanswer result
  refine together_lift (fun x => (hrest _ _).stays) fun s => ?_
  have hs := hn t s
  revert hs
  obtain ⟨⟨result, e⟩, s₁⟩ := nested.evaluate t nested.start s
  obtain ⟨⟨result', e'⟩, s₁'⟩ := nested'.evaluate t nested'.start s
  rintro (hmark | ⟨rfl, rfl, hds⟩)
  · exact .inl fun c => (hanswer result).stays _ _ (marked_checkReports hmark c s₁)
  · refine .inr ⟨rfl, ?_⟩
    dsimp only at hds ⊢
    rw [hds]
    exact hrest _ _

theorem together_rules (hi : ∀ source target, Together (checkers D H) (inner source target)
    (inner' source target)) (source target : TypeId) :
    Together (checkers D H) (rules nested inner source target)
      (rules nested' inner' source target) := by
  refine together_ite (Pairs.pure true) (together_ite (Pairs.pure true) ?_)
  refine together_ite (together_fail _) (together_ite (Pairs.pure true) ?_)
  refine Pairs.bind (together_resolve hn source) fun resolvedSource => ?_
  refine Pairs.bind (together_resolve hn target) fun resolvedTarget => ?_
  exact together_ite (together_structures hi) (hi _ _)

end nested

section pair

variable {check check' : Check.Inner} {source target : TypeId}

theorem guard_checkReport (d : Diagnostic) (c : Checker) (s : Store) :
    (Check.report d c s).1.2.guard = c.guard := by
  change (if c.diagnostics.contains d then c
    else { c with diagnostics := c.diagnostics.push d }).guard = c.guard
  split <;> rfl

/-- What a pair does when the guard refuses it at a limit. -/
def refuse (source target : TypeId) : Check Bool := do
  Check.reportDepthExceeded source
  fail (.typeMismatch source target)

theorem guard_refuse (source target : TypeId) (c : Checker) (s : Store) :
    (refuse source target c s).1.2.guard = c.guard := by
  obtain ⟨guard, excess, failures, failure, depthReported, diagnostics⟩ := c
  cases depthReported with
  | true => rfl
  | false => exact guard_checkReport _ _ s

theorem meet_refuse (source target : TypeId) {c : Checker}
    (h : ∀ reported, H c.guard c.guard reported) (s : Store) :
    Meet (checkers D H) (refuse source target c s) (refuse source target c s) := by
  refine .inr ⟨rfl, rfl, (refuse source target c s).1.2.guard, rfl, ?_⟩
  rw [guard_refuse]
  exact h _

theorem stays_refuse (source target : TypeId) (c : Checker) (s : Store)
    (h : (checkers D H).marked c) : (checkers D H).marked (refuse source target c s).1.2 := by
  obtain ⟨guard, excess, failures, failure, depthReported, diagnostics⟩ := c
  cases depthReported with
  | true => exact h
  | false => exact (together_checkReport (H := H) _).stays _ s h

/-- A limit that is not yet reported gets reported. -/
theorem marked_refuse (hD : ∀ args site, D ((Diagnostic.of .evaluationDepthExceeded args).withLocation site))
    (source target : TypeId) {c : Checker} (hc : c.depthReported = false) (s : Store) :
    (checkers D H).marked (refuse source target c s).1.2 := by
  obtain ⟨guard, excess, failures, failure, depthReported, diagnostics⟩ := c
  subst hc
  exact ⟨_, mem_checkReport _ _ s, hD _ _⟩

theorem stays_work (hc : ∀ c s, (checkers D H₁).marked c →
    (checkers D H₁).marked (check source target c s).1.2) (c : Checker) (s : Store)
    (h : (checkers D H).marked c) : (checkers D H).marked (work check source target c s).1.2 := by
  have hrest : ∀ (b : Bool) c s, (checkers D H).marked c → (checkers D H).marked ((do
      Check.leave (source, target)
      unless b do
        modify fun c => { c with failures := c.failures.insert (source, target) }
      return b : Check Bool) c s).1.2 := by
    intro b c s h
    cases b <;> exact h
  exact hrest _ _ _ (hc c s h)

theorem meet_work (hH : Guarding D H H₁)
    (hc : Together (checkers D H₁) (check source target) (check' source target)) {c c' : Checker}
    {s : Store} (h : (checkers D H₁).rel c c') :
    Meet (checkers D H) (work check source target c s) (work check' source target c' s) := by
  refine meet_bind _ _ (hc.same c c' s h) (fun b c s hm => ?_) fun b c c' s h => ?_
  · cases b <;> exact hm
  · obtain ⟨g, rfl, hg⟩ := h
    cases b <;> exact .inr ⟨rfl, rfl, _, rfl, hH.leave _ _ _ _ hg⟩

/-- What follows the guard's answer. -/
def afterEnter (check : Check.Inner) (source target : TypeId) : Answer → Check Bool
  | .entered => work check source target
  | .cycle => return true
  | _ => refuse source target

theorem together_pair (hH : Guarding D H H₁)
    (hc : Together (checkers D H₁) (check source target) (check' source target)) :
    Together (checkers D H) (pair check source target) (pair check' source target) := by
  refine together_ite (Pairs.pure true) (together_checkGet fun c g => ?_)
  refine together_ite (together_fail _) ?_
  change Together (checkers D H) (Check.enter (source, target) >>= afterEnter check source target)
    (Check.enter (source, target) >>= afterEnter check' source target)
  refine ⟨fun c s hmark => ?_, ?_⟩
  · have hstays : ∀ a c s, (checkers D H).marked c →
        (checkers D H).marked (afterEnter check source target a c s).1.2 := by
      intro a
      cases a with
      | entered => exact stays_work hc.stays
      | cycle => exact fun _ _ h => h
      | depthExceeded => exact stays_refuse source target
      | iterationExceeded => exact stays_refuse source target
    exact hstays _ _ s hmark
  · rintro c _ s ⟨g, rfl, hg⟩
    have henter := hH.enter _ _ _ (source, target) hg
    change Meet _ (afterEnter check source target (c.guard.enter (source, target)).1
        { c with guard := (c.guard.enter (source, target)).2 } s)
      (afterEnter check' source target (g.enter (source, target)).1
        { c with guard := (g.enter (source, target)).2 } s)
    generalize c.guard.enter (source, target) = r at henter
    generalize g.enter (source, target) = r' at henter
    cases henter with
    | entered h => exact meet_work hH hc ⟨_, rfl, h⟩
    | cycle h => exact .inr ⟨rfl, rfl, _, rfl, h⟩
    | @marked _ g₁ _ ha hreported hD =>
        have hmark : (checkers D H).marked (refuse source target { c with guard := g₁ } s).1.2 :=
          marked_refuse hD source target (c := { c with guard := g₁ }) hreported s
        rcases ha with rfl | rfl <;> exact .inl hmark
    | @exceeded _ g₁ ha h =>
        have hrel := meet_refuse (D := D) source target (c := { c with guard := g₁ }) h s
        rcases ha with rfl | rfl <;> exact hrel

end pair

end TypeResolution.Limits
