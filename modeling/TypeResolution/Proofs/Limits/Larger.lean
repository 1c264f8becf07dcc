import Mathlib
import TypeResolution.Proofs.Evaluation.Steps
import TypeResolution.Proofs.Limits.Lockstep
import TypeResolution.Resolution

/-!
Limits never bind silently: a request that reports no limit has the same outcome under larger limits.
A run under the given limits and one under larger ones stay together until the first one reports
that a limit was hit. Every report travels back to the request, since checks hand theirs to the
evaluation that asked for them, and nested evaluations hand theirs to the check.
-/

namespace TypeResolution

/-- The same options with limits that are at least as large. -/
structure Options.Widens (o o' : Options) : Prop where
  evaluationDepth : o.maxEvaluationDepth ≤ o'.maxEvaluationDepth
  subtypeDepth : o.maxSubtypeDepth ≤ o'.maxSubtypeDepth
  iterations : o.maxIterations ≤ o'.maxIterations
  excessPropertyCheck : o'.excessPropertyCheck = o.excessPropertyCheck
  preserveLiterals : o'.preserveLiterals = o.preserveLiterals

namespace Limits

open Recursion

variable {κ : Type} [DecidableEq κ]

def IsLimit (d : Diagnostic) : Prop := d.kind = .evaluationDepthExceeded

/-- Guards at depth `k` above the base `b`, in the first run `shift` levels deeper: one under the
limits `d` and `n` that it has not hit and one under the limits `d'` and `n'` that has taken no more
steps. -/
structure Wider (shift d n d' n' b k : Nat) (g g' : Guard κ) (reported : Bool) : Prop where
  unreported : reported = false
  within : g.exceeded = false
  depth : g.depth = k + shift
  base : g.baseDepth ≤ b + shift
  maxDepth : g.maxDepth = d
  maxIterations : g.maxIterations = n
  steps : g'.iterations ≤ g.iterations
  eq : g' = { g with
    depth := k, baseDepth := b, maxDepth := d', maxIterations := n', iterations := g'.iterations }

variable {shift d n d' n' b k : Nat}

section enter

variable (hd : d ≤ d' + shift) (hn : n ≤ n')

include hd hn

theorem entering_wider {g g' : Guard κ} {reported : Bool}
    (h : Wider shift d n d' n' b k g g' reported) (key : κ) :
    Entering IsLimit (Wider shift d n d' n' b k)
      (if k + shift < d then Wider shift d n d' n' b (k + 1) else noGuards) reported (g.enter key)
      (g'.enter key) := by
  obtain ⟨hreported, hwithin, hdepth, hbase, rfl, rfl, hsteps, heq⟩ := h
  have hlimit : ∀ args site,
      IsLimit ((Diagnostic.of .evaluationDepthExceeded args).withLocation site) := fun _ _ => rfl
  generalize g'.iterations = i at hsteps heq
  subst heq
  unfold Guard.enter
  dsimp only [Guard.tick]
  have hticks : min (i + 1) (UInt32.size - 1) ≤ min (g.iterations + 1) (UInt32.size - 1) :=
    min_le_min_right _ (Nat.succ_le_succ hsteps)
  generalize min (g.iterations + 1) (UInt32.size - 1) = steps at hticks
  generalize min (i + 1) (UInt32.size - 1) = steps' at hticks
  by_cases hsteps : g.maxIterations < steps
  · rw [if_pos hsteps]
    exact .marked (.inl rfl) hreported hlimit
  have hsteps' : ¬n' < steps' := by omega
  rw [if_neg hsteps, if_neg hsteps']
  by_cases hlevel : g.maxDepth ≤ g.depth
  · rw [if_pos hlevel]
    exact .marked (.inr rfl) hreported hlimit
  have hlevel' : ¬d' ≤ k := by omega
  rw [if_neg hlevel, if_neg hlevel', if_pos (by omega)]
  by_cases hactive : key ∈ g.active
  · rw [if_pos hactive, if_pos hactive]
    exact .cycle ⟨hreported, hwithin, hdepth, hbase, rfl, rfl, hticks, rfl⟩
  · rw [if_neg hactive, if_neg hactive]
    refine .entered ⟨hreported, hwithin, ?_, hbase, rfl, rfl, hticks, rfl⟩
    change g.depth + 1 = k + 1 + shift
    omega

theorem guarding_wider (hbk : b ≤ k) : Guarding IsLimit (Wider shift d n d' n' b k : GuardRel κ)
    (if k + shift < d then Wider shift d n d' n' b (k + 1) else noGuards) where
  enter g g' reported key h := entering_wider hd hn h key
  leave g g' reported key h := by
    split at h
    · obtain ⟨hreported, hwithin, hdepth, hbase, hmaxDepth, hmaxIterations, hsteps, heq⟩ := h
      generalize g'.iterations = i at hsteps heq
      subst heq
      have hleft : max (k + 1 - 1) b = k := by omega
      refine ⟨hreported, hwithin, ?_, hbase, hmaxDepth, hmaxIterations, hsteps, ?_⟩
      · change max (g.depth - 1) g.baseDepth = k + shift
        omega
      · simp only [Guard.leave, hleft]
    · exact h.elim
  exceeded g g' reported h := by rw [h.eq]

end enter

/-- Guards under the limits `d` and `n`, beside guards under larger ones that are less deep. -/
def wider (hd : d ≤ d' + shift) (hn : n ≤ n') : Ladder κ IsLimit shift d d' where
  rel := Wider shift d n d' n'
  limit_le := hd
  depth h := by rw [h.eq]; exact ⟨h.depth, rfl⟩
  base h := by rw [h.eq]
  maxDepth h := by rw [h.eq]
  enters := guarding_wider hd hn

/-- Evaluations that are `shift` levels deeper, beside evaluations under larger limits. -/
def raised (shift : Nat) {o o' : Options} (h : o.Widens o') : Lockstep IsLimit shift o o' where
  types := wider (Nat.le_add_right_of_le (UInt32.le_iff_toNat_le.mp h.evaluationDepth))
    (UInt32.le_iff_toNat_le.mp h.iterations)
  pairs := wider (UInt32.le_iff_toNat_le.mp h.subtypeDepth)
    (UInt32.le_iff_toNat_le.mp h.iterations)
  freshType _ := ⟨rfl, rfl, rfl, Nat.le_refl _, rfl, rfl, Nat.le_refl _, rfl⟩
  freshPair := ⟨rfl, rfl, rfl, Nat.le_refl _, rfl, rfl, Nat.le_refl _, rfl⟩
  excessPropertyCheck := h.excessPropertyCheck
  preserveLiterals := h.preserveLiterals

def widened {o o' : Options} (h : o.Widens o') : Lockstep IsLimit 0 o o' := raised 0 h

end Limits

namespace Setting

theorem evaluate_run (setting : Setting) (patience : Option Nat) (t : TypeId) (s : Store) :
    evaluate setting patience t s =
      let run : Eval TypeId := do
        let evaluated ← Eval.evaluateAt setting setting.options.maxEvaluationDepth.toNat t
        Eval.reporting (Reporting.normalize (← Eval.origin? t) evaluated)
      let r := run (.fresh setting.options 0 patience) s
      (⟨r.1.1, r.1.2.diagnostics⟩, r.2) :=
  rfl

/-- A request that reports no limit has the same outcome, and makes the same types, under larger
limits. -/
theorem evaluate_of_larger_limits (env : Environment) {o o' : Options} (hwiden : o.Widens o')
    (patience : Option Nat) (t : TypeId) (s : Store)
    (hsilent : ∀ d ∈ (evaluate ⟨env, o⟩ patience t s).1.diagnostics,
      d.kind ≠ .evaluationDepthExceeded) :
    evaluate ⟨env, o'⟩ patience t s = evaluate ⟨env, o⟩ patience t s := by
  have hevaluate : Limits.Together
      (Limits.evaluators Limits.IsLimit ((Limits.widened hwiden).types.rel 0 0))
      (Eval.evaluateAt ⟨env, o⟩ o.maxEvaluationDepth.toNat t)
      (Eval.evaluateAt ⟨env, o'⟩ o'.maxEvaluationDepth.toNat t) :=
    Limits.together_evaluateAt (Limits.widened hwiden) (Eval.unfolds_evaluateAt ⟨env, o'⟩)
      (Nat.zero_le 0) (Nat.le_add_left _ _) t
  have hrun := Limits.Pairs.bind hevaluate fun evaluated =>
    Limits.Pairs.bind (Limits.Pairs.lift (Build.origin? (.type t))) fun site =>
      Limits.together_reporting (Reporting.normalize site evaluated)
  rw [evaluate_run] at hsilent ⊢
  rcases hrun.same _ _ s ((Limits.widened hwiden).rel_fresh 0 patience) with
    ⟨d, hd, hD⟩ | ⟨hvalue, hstore, g, he, _⟩
  · exact absurd hD (hsilent d hd)
  · have hds := congrArg Evaluator.diagnostics he
    have houtcome := congr (congrArg Outcome.mk hvalue) hds
    rw [evaluate_run]
    exact Prod.ext houtcome hstore

/-- The body of `type L = { next: L }` and the type
`L extends { next: { next: unknown } } ? string : number`. -/
def recursiveSample : Build (TypeId × TypeId) := do
  let lazy ← Build.reference "L" []
  let body ← Build.object ⟨[⟨"next", lazy, false, false⟩], none⟩
  let inner ← Build.object ⟨[⟨"next", .unknown, false, false⟩], none⟩
  let pattern ← Build.object ⟨[⟨"next", inner, false, false⟩], none⟩
  let t ← Build.conditional ⟨lazy, pattern, [], .string, .number, false⟩
  return (body, t)

/-- The least limits that the sample stays within. -/
def tight : Options := { maxEvaluationDepth := 4, maxSubtypeDepth := 4, maxIterations := 6 }

/-- What is reported for a conditional whose check fits its pattern, if the check itself reports
nothing. -/
theorem evaluate_diagnostics_of_fit {setting : Setting} {depth : Nat} {t check pattern : TypeId}
    {c : Conditional} {s : Store} (ht : t.isFixed = false) (hn : s.node t = .conditional c)
    (hinfer : c.infer = []) (hdistributive : c.distributive = false) (hany : check ≠ .any)
    (hfixed : c.whenTrue.isFixed) (hdepth : setting.options.maxEvaluationDepth.toNat = depth + 1)
    (henter : ((setting.evaluator none).guard.enter t).1 = .entered) :
    let inner := Eval.evaluateAt setting depth
    let x := (inner c.check).run
      { setting.evaluator none with guard := ((setting.evaluator none).guard.enter t).2 } s
    let y := (inner c.pattern).run x.1.2 x.2
    let v := Check.subtypeAt ⟨inner, .fresh setting.options y.1.2.guard.depth none⟩
      setting.options.maxSubtypeDepth.toNat check pattern (.fresh setting.options) y.2
    x.1.1 = .ok check → y.1.1 = .ok pattern → y.2.containsParams check = false →
      y.2.containsParamsExcept [] pattern = false → v.1.2.diagnostics = #[] → v.1.1 = true →
      (setting.evaluate none t s).1.diagnostics = y.1.2.diagnostics := by
  intro inner x y v hx hy hcheck hpattern hquiet htrue
  have hwork := Eval.conditional_plain (t := t) hinfer hany hx hy (by simp [hdistributive]) hcheck
    hpattern hquiet htrue
  have hbranch : (do inner (← Build.instantiate .empty c.whenTrue) : Eval TypeId).run y.1.2 v.2 =
      ((.ok c.whenTrue, y.1.2), v.2) := by
    have hinstantiate : (liftM (Build.instantiate .empty c.whenTrue) : Eval TypeId).run y.1.2 v.2 =
        ((.ok c.whenTrue, y.1.2), v.2) := rfl
    rw [Eval.run_bind, hinstantiate]
    exact Eval.evaluateAt_fixed hfixed depth _ _
  have hrun : (Eval.evaluateAt setting (depth + 1) t).run (setting.evaluator none) s =
      Eval.finish t ((.ok c.whenTrue, y.1.2), v.2) := by
    rw [Eval.evaluateAt, Eval.guarded_entered ht rfl (by simp [Setting.evaluator, Evaluator.fresh]) rfl
      henter, hn, ← hbranch, ← hwork]
    rfl
  rw [← hdepth] at hrun
  exact congrArg (·.1.diagnostics) (evaluate_of_fixed hfixed hrun)

theorem recursiveSample_eq :
    let r := recursiveSample .empty
    r.1.1 = ⟨13⟩ ∧ r.1.2 = ⟨16⟩ ∧
      r.2.node ⟨16⟩ = .conditional ⟨⟨12⟩, ⟨15⟩, [], .string, .number, false⟩ := by
  refine ⟨?_, ?_, ?_⟩ <;> cbv

def recursiveSetting : Setting := ⟨⟨[⟨"L", [], ⟨13⟩, none⟩]⟩, tight⟩

/-- What becomes of the check type of the sample. -/
def recursiveCheck : Eval.End TypeId :=
  (Eval.evaluateAt recursiveSetting 3 ⟨12⟩).run { recursiveSetting.evaluator none with
    guard := ((recursiveSetting.evaluator none).guard.enter ⟨16⟩).2 } (recursiveSample .empty).2

/-- What becomes of its pattern then. -/
def recursivePattern : Eval.End TypeId :=
  (Eval.evaluateAt recursiveSetting 3 ⟨15⟩).run recursiveCheck.1.2 recursiveCheck.2

theorem recursiveSample_parts : recursiveCheck.1.1 = .ok ⟨13⟩ ∧ recursivePattern.1.1 = .ok ⟨15⟩ ∧
    recursivePattern.2.containsParams ⟨13⟩ = false ∧
    recursivePattern.2.containsParamsExcept [] ⟨15⟩ = false ∧
    recursivePattern.1.2.diagnostics = #[] := by
  refine ⟨?_, ?_, ?_, ?_, ?_⟩ <;> cbv

/-- The check evaluates `L` once more, in an evaluator of its own. -/
theorem recursiveSample_fits :
    let v := Check.subtypeAt
      ⟨Eval.evaluateAt recursiveSetting 3, .fresh tight recursivePattern.1.2.guard.depth none⟩ 4 ⟨13⟩
      ⟨15⟩ (.fresh tight) recursivePattern.2
    v.1.2.diagnostics = #[] ∧ v.1.1 = true := by
  refine ⟨?_, ?_⟩
  · cbv
  · cbv

theorem evaluate_recursiveSample :
    let r := recursiveSample .empty
    (evaluate ⟨⟨[⟨"L", [], r.1.1, none⟩]⟩, tight⟩ none r.1.2 r.2).1.diagnostics = #[] := by
  intro r
  obtain ⟨hbody, ht, hn⟩ := recursiveSample_eq
  obtain ⟨hcheck, hpattern, hclosed, hclosed', hquiet⟩ := recursiveSample_parts
  obtain ⟨hfits, htrue⟩ := recursiveSample_fits
  have hdiagnostics : (recursiveSetting.evaluate none ⟨16⟩ r.2).1.diagnostics =
      recursivePattern.1.2.diagnostics :=
    evaluate_diagnostics_of_fit rfl hn rfl rfl (by decide) rfl (by decide) rfl hcheck hpattern hclosed
      hclosed' hfits htrue
  rw [hbody, ht]
  exact hdiagnostics.trans hquiet

theorem evaluate_of_larger_limits_recursive :
    let r := recursiveSample .empty
    let env : Environment := ⟨[⟨"L", [], r.1.1, none⟩]⟩
    tight.Widens .standard ∧ (evaluate ⟨env, tight⟩ none r.1.2 r.2).1.diagnostics = #[] ∧
      evaluate ⟨env, .standard⟩ none r.1.2 r.2 = evaluate ⟨env, tight⟩ none r.1.2 r.2 := by
  intro r env
  have hwiden : tight.Widens .standard := ⟨by decide, by decide, by decide, rfl, rfl⟩
  have hsilent : (evaluate ⟨env, tight⟩ none r.1.2 r.2).1.diagnostics = #[] := evaluate_recursiveSample
  refine ⟨hwiden, hsilent, evaluate_of_larger_limits env hwiden none r.1.2 r.2 fun d hd => ?_⟩
  rw [hsilent] at hd
  simp at hd

end Setting

end TypeResolution
