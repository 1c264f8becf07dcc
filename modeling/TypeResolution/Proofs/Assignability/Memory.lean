import TypeResolution.Proofs.Assignability.Verdicts

/-!
What remembering failed pairs changes. A checker without a memory works every pair out anew, so
its verdict depends on nothing but the depth that it may reach. A checker that remembers takes no
more than that, and as long as it hits no limit it takes as much. A pair that failed because of a
limit is remembered like any other, so when it is met again with more room it is still refused.
-/

namespace TypeResolution

namespace Check

/-- Like `pair`, without a memory of the pairs that failed. -/
def pairAnew (check : Inner) (source target : TypeId) : Check Bool := do
  if source = target then
    return true
  else
    match ← enter (source, target) with
    | .entered =>
        let result ← check source target
        leave (source, target)
        return result
    | .cycle => return true
    | _ =>
        reportDepthExceeded source
        fail (.typeMismatch source target)

def subtypeAnew (nested : Nested) : Nat → Inner
  | 0 => pairAnew fun source target => fail (.typeMismatch source target)
  | depth + 1 => pairAnew (rules nested (subtypeAnew nested depth))

def isAssignableAnew (nested : Nested) (source target : TypeId) : Check Bool := do
  restoreFailure none
  let guard := (← get).guard
  subtypeAnew nested (guard.maxDepth - guard.depth) source target

end Check

namespace Assignability

open Store Replay Check

variable {Γ : Context} {A : List (TypeId × TypeId)} {depth : Nat} {s : Store} {a b : TypeId}

/-- A checker that has used up its steps. The count stops at the largest word, so it is looked at up
to there only: once used up, the steps stay used up. -/
def outOfSteps (c : Checker) : Bool :=
  c.guard.maxIterations < min c.guard.iterations (UInt32.size - 1)

/-- A checker without a memory, for which only the steps are a limit. -/
def Anew (Γ : Context) (A : List (TypeId × TypeId)) (depth : Nat) : Checker → Prop :=
  Ready Γ A depth

instance : Comparing Γ (Anew Γ A depth) where
  limited := outOfSteps
  excess := Ready.excess
  withFailure := Ready.withFailure
  report := Ready.report
  limited_withFailure _ _ := rfl
  limited_report _ _ := rfl

section anew

variable {check : Check.Inner} {reason : Failure} {c : Checker} {p : TypeId × TypeId}

theorem outOfSteps_enter (h : outOfSteps c) :
    outOfSteps { c with guard := (c.guard.enter p).2 } := by
  simp only [outOfSteps, decide_eq_true_eq] at h ⊢
  have hsteps : (c.guard.enter p).2.iterations = c.guard.tick.iterations ∧
      (c.guard.enter p).2.maxIterations = c.guard.maxIterations := by
    unfold Recursion.Guard.enter
    grind [Recursion.Guard.tick]
  simp only [hsteps, Recursion.Guard.tick]
  omega

theorem outOfSteps_of_iterationExceeded (h : (c.guard.enter p).1 = .iterationExceeded) :
    outOfSteps { c with guard := (c.guard.enter p).2 } := by
  unfold outOfSteps Recursion.Guard.enter at *
  grind [Recursion.Guard.tick]

theorem full_of_depthExceeded {g : Recursion.Guard (TypeId × TypeId)}
    (h : (g.enter p).1 = .depthExceeded) : g.maxDepth ≤ g.depth := by
  unfold Recursion.Guard.enter at h
  grind [Recursion.Guard.tick]

theorem fresh_of_entered {g : Recursion.Guard (TypeId × TypeId)}
    (h : (g.enter p).1 = .entered) : p ∉ g.active := by
  unfold Recursion.Guard.enter at h
  grind [Recursion.Guard.tick]

theorem anew_reportDepthExceeded :
    Checks Γ (Anew Γ A depth) s (reportDepthExceeded a) fun _ _ => True := by
  intro hs c hc
  rw [reportDepthExceeded_run]
  split
  · exact ⟨.refl s, hs, trivial, hc, id, fun _ => trivial⟩
  · generalize hd : Diagnostic.withLocation _ _ = d
    obtain ⟨ds, hrun, hmem, -⟩ := report_run d { c with depthReported := true } s
    rw [hrun]
    refine ⟨.refl s, hs, trivial, fun hF => ?_, id, fun _ => trivial⟩
    have hc : Ready Γ A depth c := hc hF
    exact ⟨hc.active, hc.room, hc.base, hc.excess, nofun, fun _ => ⟨d, hmem, hd ▸ rfl⟩⟩

theorem anew_limit {lo hi : Prop} (h : ¬lo) : Decides Γ (Anew Γ A depth) s (do
    reportDepthExceeded a
    fail reason) lo hi :=
  Steps.decides anew_reportDepthExceeded fun _ _ _ _ _ => decides_fail h

theorem pairAnew_run (hne : a ≠ b) :
    pairAnew check a b c s =
      (match (c.guard.enter (a, b)).1 with
      | .entered => do
          let result ← check a b
          leave (a, b)
          return result
      | .cycle => return true
      | _ => do
          reportDepthExceeded a
          fail (.typeMismatch a b) : Check Bool)
        { c with guard := (c.guard.enter (a, b)).2 } s := by
  unfold pairAnew
  rw [if_neg hne]
  rfl

theorem ends_leave {mid : Prop} (hs : s.Formed)
    (hc : s.Extends Γ.store → 0 < depth ∧ Ready Γ ((a, b) :: A) (depth - 1) c)
    (hcheck : Decides Γ (Anew Γ ((a, b) :: A) (depth - 1)) s (check a b) mid mid) :
    Ends (Ok AnyName) outOfSteps Γ.store (Ready Γ A depth)
      (fun limited r => 0 < depth ∧ (limited = false → mid → r = true) ∧ (r = true → mid)) s c
      ((do
        let result ← check a b
        leave (a, b)
        return result : Check Bool) c s) := by
  have hend := hcheck hs c fun hF => (hc hF).2
  refine ⟨hend.grows, hend.formed, trivial, fun hF => ?_, hend.limit, fun hF => ?_⟩
  · have hleft := Ready.left (hend.ready hF)
    rwa [Nat.sub_add_cancel (hc (hend.grows.trans hF)).1] at hleft
  · exact ⟨(hc (hend.grows.trans hF)).1, hend.post hF⟩

theorem decides_pairAnew {mid : Prop}
    (hcheck : Decides Γ (Anew Γ ((a, b) :: A) (depth - 1)) s (check a b) mid mid)
    (hmid : 0 < depth → a ≠ b → (a, b) ∉ A → (mid ↔ Within Γ depth A a b)) :
    Decides Γ (Anew Γ A depth) s (pairAnew check a b) (Within Γ depth A a b)
      (Within Γ depth A a b) := by
  by_cases hne : a = b
  · unfold pairAnew
    rw [if_pos hne]
    refine decides_true ?_
    cases depth with
    | zero => exact hne
    | succ depth => exact .inl hne
  intro hs c hc
  rw [pairAnew_run hne]
  cases henter : (c.guard.enter (a, b)).1 with
  | entered =>
      have hend := ends_leave hs (fun hF => Ready.entered (hc hF) henter) hcheck
      refine { hend with limit := fun h => hend.limit (outOfSteps_enter h), post := fun hF => ?_ }
      obtain ⟨hpos, hpost⟩ := hend.post hF
      have hactive := fresh_of_entered henter
      rw [Ready.active (hc (hend.grows.trans hF))] at hactive
      rw [← hmid hpos hne hactive]
      exact hpost
  | cycle =>
      have hrefused : (c.guard.enter (a, b)).1 ≠ .entered := by simp [henter]
      refine ⟨.refl s, hs, trivial, fun hF => Ready.refused (hc hF) hrefused, outOfSteps_enter,
        fun hF => ⟨fun _ _ => rfl, fun _ => ?_⟩⟩
      obtain ⟨hlt, hmem⟩ := (enter_eq_of_refused hrefused).1 henter
      have hready : Ready Γ A depth c := hc hF
      have hroom := hready.room
      rw [hready.active] at hmem
      cases depth with
      | zero => omega
      | succ depth => exact .inr (.inl hmem)
  | depthExceeded =>
      -- Without a memory the depth is no limit of the verdict: it is what `Within` counts.
      have hrefused : (c.guard.enter (a, b)).1 ≠ .entered := by simp [henter]
      have hlimit : Decides Γ (Anew Γ A depth) s (do
          reportDepthExceeded a
          fail (.typeMismatch a b)) (Within Γ depth A a b) (Within Γ depth A a b) := by
        refine Decides.mono (anew_limit id) (fun hF hwithin => ?_) fun _ => id
        have hroom := Ready.room (hc hF)
        have hfull := full_of_depthExceeded henter
        obtain rfl : depth = 0 := by omega
        exact hne hwithin
      have hend := hlimit hs _ fun hF => Ready.refused (hc hF) hrefused
      exact { hend with limit := fun h => hend.limit (outOfSteps_enter h) }
  | iterationExceeded =>
      have hrefused : (c.guard.enter (a, b)).1 ≠ .entered := by simp [henter]
      have hlimit : Decides Γ (Anew Γ A depth) s (do
          reportDepthExceeded a
          fail (.typeMismatch a b)) False (Within Γ depth A a b) := anew_limit id
      have hend := hlimit hs _ fun hF => Ready.refused (hc hF) hrefused
      have hout := hend.limit (outOfSteps_of_iterationExceeded henter)
      refine { hend with limit := fun _ => hout, post := fun hF => ⟨fun hl => ?_, ?_⟩ }
      · exact absurd (hl.symm.trans hout) (by simp)
      · exact (hend.post hF).2

theorem asks_subtypeAnew (hn : Resolves (.free AnyName) s Γ.nested Γ.nested) :
    Asks Γ (Anew Γ A depth) s (subtypeAnew Γ.nested depth) (Within Γ depth A)
      (Within Γ depth A) := by
  induction depth generalizing s A with
  | zero =>
      intro s₁ h₁ a b ha hb
      exact decides_pairAnew (decides_fail id) fun h => absurd h (by simp)
  | succ depth ih =>
      intro s₁ h₁ a b ha hb
      apply decides_pairAnew (decides_rules (hn.mono h₁) (ih (hn.mono h₁)) ha hb)
      intro _ hne hactive
      constructor
      · exact fun h => .inr (.inr h)
      · exact fun h => (h.resolve_left hne).resolve_left hactive

end anew

/-- A checker for `setting` starts somewhere between the stores `s` and `F`, makes a check and ends
as `c`. -/
def Ran (setting : Setting) (s F : Store) (check : Check Bool) (verdict : Bool) (c : Checker) :
    Prop :=
  ∃ s₀ s₁, s.Extends s₀ ∧ s₀.Formed ∧ check (.fresh setting.options) s₀ = ((verdict, c), s₁) ∧
    s₁.Extends F

section verdicts

variable {setting : Setting} {F : Store} {verdict verdict' : Bool} {c c' : Checker}
  (henv : setting.environment.Known s) (ha : a.index < s.size) (hb : b.index < s.size)

include henv ha hb

theorem anew_iff_within
    (hrun : Ran setting s F (isAssignableAnew (setting.nested depth) a b) verdict c)
    (hsteps : c.guard.iterations ≤ c.guard.maxIterations) :
    verdict = true ↔ Within ⟨F, setting.nested depth, setting.options.excessPropertyCheck⟩
      setting.options.maxSubtypeDepth.toNat [] a b := by
  obtain ⟨s₀, s₁, hs₀, hformed, hrun, hF⟩ := hrun
  let Γ : Context := ⟨F, setting.nested depth, setting.options.excessPropertyCheck⟩
  have hasks : Asks Γ (Anew Γ [] setting.options.maxSubtypeDepth.toNat) s₀ _ _ _ :=
    asks_subtypeAnew (resolves_nested hformed (henv.mono hs₀) depth)
  have hend := hasks s₀ (.refl s₀) a b
    (hformed.closed_of_known (Nat.lt_of_lt_of_le ha hs₀.size_le))
    (hformed.closed_of_known (Nat.lt_of_lt_of_le hb hs₀.size_le)) hformed
    (.fresh setting.options) fun _ => ready_fresh rfl
  have hsame : isAssignableAnew (setting.nested depth) a b (.fresh setting.options) s₀ =
      subtypeAnew Γ.nested setting.options.maxSubtypeDepth.toNat a b (.fresh setting.options) s₀ :=
    rfl
  rw [← hsame, hrun] at hend
  obtain ⟨hlo, hhi⟩ := hend.post hF
  have hleft : outOfSteps c = false := by
    simp only [outOfSteps, decide_eq_false_iff_not]
    omega
  exact ⟨hhi, hlo hleft⟩

theorem within_of_memory
    (hrun : Ran setting s F (Check.isAssignable (setting.nested depth) a b) verdict c) :
    (verdict = true → Within ⟨F, setting.nested depth, setting.options.excessPropertyCheck⟩
      setting.options.maxSubtypeDepth.toNat [] a b) ∧
    ((∀ d ∈ c.diagnostics, d.kind ≠ .evaluationDepthExceeded) →
      Assignable ⟨F, setting.nested depth, setting.options.excessPropertyCheck⟩ a b →
      verdict = true) := by
  obtain ⟨s₀, s₁, hs₀, hformed, hrun, hF⟩ := hrun
  let Γ : Context := ⟨F, setting.nested depth, setting.options.excessPropertyCheck⟩
  have hasks : Asks Γ (Ready Γ [] setting.options.maxSubtypeDepth.toNat) s₀ _ _ _ :=
    asks_within (resolves_nested hformed (henv.mono hs₀) depth)
  have hend := hasks s₀ (.refl s₀) a b
    (hformed.closed_of_known (Nat.lt_of_lt_of_le ha hs₀.size_le))
    (hformed.closed_of_known (Nat.lt_of_lt_of_le hb hs₀.size_le)) hformed
    (.fresh setting.options) fun _ => ready_fresh rfl
  have hsame : Check.isAssignable (setting.nested depth) a b (.fresh setting.options) s₀ =
    subtypeAt Γ.nested setting.options.maxSubtypeDepth.toNat a b (.fresh setting.options) s₀ := rfl
  rw [← hsame, hrun] at hend
  obtain ⟨hlo, hhi⟩ := hend.post hF
  exact ⟨hhi, fun hlimit => hlo ((hend.ready hF).not_reported hlimit)⟩

/-- A checker that remembers takes no pair that one without a memory refuses, and as long as it hits
no limit it refuses no pair that the other takes. -/
theorem memory_only_refuses
    (hmemory : Ran setting s F (Check.isAssignable (setting.nested depth) a b) verdict c)
    (hanew : Ran setting s F (isAssignableAnew (setting.nested depth) a b) verdict' c')
    (hsteps : c'.guard.iterations ≤ c'.guard.maxIterations) :
    (verdict = true → verdict' = true) ∧
      ((∀ d ∈ c.diagnostics, d.kind ≠ .evaluationDepthExceeded) → verdict = verdict') := by
  obtain ⟨hwithin, hassignable⟩ := within_of_memory henv ha hb hmemory
  have hiff := anew_iff_within henv ha hb hanew hsteps
  refine ⟨fun h => hiff.mpr (hwithin h), fun hlimit => Bool.eq_iff_iff.mpr ⟨?_, ?_⟩⟩
  · exact fun h => hiff.mpr (hwithin h)
  · exact fun h => hassignable hlimit ((hiff.mp h).assignable)

end verdicts

end Assignability

end TypeResolution
