import TypeResolution.Proofs.Evaluation.Restored

/-!
An evaluation that waits for another type. The evaluator of an inner evaluation is also at work on the
type that asked for it. As long as the inner evaluation does not come to this type itself, it runs as
if nobody were waiting.
-/

namespace TypeResolution.Limits

open Recursion Eval

variable {outer t : TypeId} {setting : Setting}

/-- The first run has come to `outer`: the type has a result, unless a limit was hit or the run may
be given up. -/
def comesTo (outer : TypeId) : Mark where
  holds e := outer ∈ e.cache ∨ e.guard.exceeded ∨ e.patience ≠ none
  lasts h := Or.imp (h.known _) (Or.imp h.exceeded fun hp he => hp (h.patience he))

/-- The same guard, in the second run with `outer` as the type that was entered first. -/
structure Beside (outer : TypeId) (g g' : Guard TypeId) (_reported : Bool) : Prop where
  absent : outer ∉ g.active
  base : g.baseDepth ≤ g.depth
  eq : g' = { g with active := g.active ++ [outer] }

/-- How an evaluation runs that waits for `outer` and one that does not. -/
abbrev awaited (outer : TypeId) : Coupling Evaluator := evaluatorsUpTo (comesTo outer) (Beside outer)

theorem exceeded_beside (g g' : Guard TypeId) (reported : Bool) (h : Beside outer g g' reported) :
    g'.exceeded = g.exceeded := by
  rw [h.eq]

theorem releasing_beside (ht : t ≠ outer) : Releasing (Beside outer) (Beside outer) t where
  leave := by
    rintro g _ _ ⟨habsent, hbase, rfl⟩
    refine ⟨fun h => habsent (List.mem_of_mem_erase h), Nat.le_max_right _ _, ?_⟩
    have herase : (g.active ++ [outer]).erase t = g.active.erase t ++ [outer] := by
      rw [List.erase_append]
      split
      · rfl
      · rename_i hmem
        rw [List.erase_of_not_mem hmem, List.erase_of_not_mem (by simpa using ht)]
    simp only [Guard.leave, herase]
  exceeded := exceeded_beside

section enter

variable {work : TypeId → Node → Eval TypeId}

/-- Work on `outer` itself marks the run. -/
theorem marked_workOn (hcalm : ∀ n, Restores (.stopped {}) (work outer n) (work outer n)) {e : Evaluator}
    (hbase : e.guard.baseDepth ≤ e.guard.depth) (hpatience : e.patience = none) (s : Store) :
    (awaited outer).marked (workOn work outer e s).1.2 := by
  have hrun : workOn work outer e s = finish outer (work outer (s.node outer) e s) :=
    entered_run work outer e s
  have hcalm := (hcalm (s.node outer) e s hbase).calm hpatience
  rw [hrun]
  rcases hx : work outer (s.node outer) e s with ⟨⟨_ | r, e₁⟩, s₁⟩
  · exact absurd (congrArg (·.1.1) hx) hcalm
  · cases hexceeded : e₁.guard.exceeded with
    | true => exact .inr (.inl hexceeded)
    | false => exact .inl (by simp [finish, hexceeded])

/-- A limit that is hit marks the run. -/
theorem marked_exceeded (t : TypeId) {e : Evaluator} (he : e.guard.exceeded) (s : Store) :
    (awaited outer).marked (leaveAsIs t e s).1.2 :=
  .inr (.inl (by rw [guard_leaveAsIs]; exact he))

theorem together_enterBeside (hcalm : ∀ n, Restores (.stopped {}) (work outer n) (work outer n))
    (hw : ∀ n, Together (awaited outer) (work t n) (work t n)) :
    Together (awaited outer) (Eval.enter t >>= afterEnterType work setting t)
      (Eval.enter t >>= afterEnterType work setting t) := by
  have hstays : ∀ e s, (awaited outer).marked e →
      (awaited outer).marked ((Eval.enter t >>= afterEnterType work setting t) e s).1.2 :=
    stays_enterType exceeded_beside hw
  refine ⟨hstays, ?_⟩
  rintro e _ s ⟨_, rfl, habsent, hbase, rfl⟩
  by_cases hpatience : e.patience = none
  · change Meet _ (afterEnterType work setting t (e.guard.enter t).1
        { e with guard := (e.guard.enter t).2 } s)
      (afterEnterType work setting t
        ({ e.guard with active := e.guard.active ++ [outer] }.enter t).1
        { e with guard := ({ e.guard with active := e.guard.active ++ [outer] }.enter t).2 } s)
    unfold Guard.enter
    dsimp only [Guard.tick]
    split
    · exact .inl (marked_exceeded t rfl s)
    split
    · exact .inl (marked_exceeded t rfl s)
    by_cases ht : t = outer
    · subst ht
      rw [if_neg habsent]
      let e₁ : Evaluator := { e with
        guard := { e.guard.tick with active := t :: e.guard.active, depth := e.guard.depth + 1 } }
      have hbase₁ : e₁.guard.baseDepth ≤ e₁.guard.depth := Nat.le_succ_of_le hbase
      exact .inl (marked_workOn (e := e₁) hcalm hbase₁ hpatience s)
    · have hmem : t ∈ e.guard.active ++ [outer] ↔ t ∈ e.guard.active := by simp [ht]
      simp only [hmem]
      split
      · exact (together_reenterCycle t).same _ _ _ ⟨_, rfl, habsent, hbase, rfl⟩
      · refine meet_workOn (releasing_beside ht) hw ⟨_, rfl, ?_, Nat.le_succ_of_le hbase, rfl⟩
        exact fun h => (List.mem_cons.mp h).elim (fun h => ht h.symm) habsent
  · exact .inl (hstays e s (.inr (.inr hpatience)))

end enter

/-- Until it comes to `outer`, an evaluation does not notice whether `outer` waits for it. -/
theorem together_awaited (outer : TypeId) (depth : Nat) (t : TypeId) :
    Together (awaited outer) (evaluateAt setting depth t) (evaluateAt setting depth t) := by
  induction depth generalizing t with
  | zero =>
      refine together_guardedOf exceeded_beside (together_enterBeside (fun _ => restores_pure outer) ?_)
      exact fun _ => Pairs.pure t
  | succ depth ih =>
      refine together_guardedOf exceeded_beside (together_enterBeside
        (restores_node (restores_evaluateAt depth) (fun _ _ _ => rfl) outer) fun n => ?_)
      refine together_node ih (fun source target => ?_) rfl t n
      -- a check creates evaluators that nobody waits for
      refine together_isAssignable (D := fun _ => False) (fun e ⟨_, _, h⟩ => h.elim) ?_
      rintro g _ _ ⟨_, _, rfl⟩ s
      exact .inr ⟨rfl, rfl, rfl⟩

end TypeResolution.Limits
