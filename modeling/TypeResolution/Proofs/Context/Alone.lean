import TypeResolution.Proofs.Context.Regimes
import TypeResolution.Proofs.Limits.Larger
import TypeResolution.Proofs.Limits.Termination

/-!
Without aliases, what a type evaluates to depends on the type alone. An evaluation without a history
asks neither what is remembered nor what is under evaluation. A run that hits no limit and meets no
type again while it is under evaluation gives what this evaluation gives, whatever it remembers and
at whatever nesting it starts.
-/

namespace TypeResolution

open Store Replay

/-- An evaluator for evaluations without a history; it counts as being at work on some type. -/
structure Evaluator.Detached (e : Evaluator) : Prop where
  active : e.guard.active ≠ []
  depth : e.guard.depth = 0
  patience : e.patience = none

theorem Evaluator.Detached.idle {e e' : Evaluator} (he : e.Detached) (h : Replay.Idle e e') :
    e'.Detached where
  active := h.guard ▸ he.active
  depth := h.guard ▸ he.depth
  patience := h.patience he.patience

namespace Eval

/-- A step of an evaluation without a history. An evaluator that is at work on no type was created
by a check; it evaluates as ever. -/
def unlessNested (setting : Setting) (t : TypeId) (step : Eval TypeId) : Eval TypeId := do
  if (← get).guard.active.isEmpty then
    evaluateAt setting setting.options.maxEvaluationDepth.toNat t
  else if t.isFixed then
    return t
  else
    step

/-- Evaluation without a history, with nesting at most `fuel`. -/
def aloneAt (setting : Setting) : Nat → TypeId → Eval TypeId
  | 0, t => unlessNested setting t (throw .mk)
  | fuel + 1, t => unlessNested setting t do
      let n ← Build.node t
      node (aloneAt setting fuel) setting t n

variable {setting : Setting} {fuel : Nat} {t : TypeId} {step : Eval TypeId} {e : Evaluator}

theorem unlessNested_run (he : e.Detached) (s : Store) :
    unlessNested setting t step e s = if t.isFixed then ((.ok t, e), s) else step e s := by
  have hactive : e.guard.active.isEmpty = false := by simpa using he.active
  change (if e.guard.active.isEmpty then evaluateAt setting _ t
    else if t.isFixed then pure t else step : Eval TypeId) e s = _
  rw [if_neg (by simp [hactive])]
  split <;> rfl

theorem aloneAt_fresh (o : Options) (p : Option Nat) (s : Store) :
    aloneAt setting fuel t (.fresh o 0 p) s =
      evaluateAt setting setting.options.maxEvaluationDepth.toNat t (.fresh o 0 p) s := by
  cases fuel <;> rfl

end Eval

namespace Context

open Eval Limits

/-- Without a history the type `t` of `s` evaluates to `r`, in every store that knows at least what
`s` knows. -/
structure Yields (setting : Setting) (fuel : Nat) (s : Store) (t r : TypeId) : Prop where
  closed : s.Closed AnyName t
  result : s.Closed AnyName r
  runs : ∀ (e : Evaluator) F, e.Detached → F.Formed → s.Extends F → ∃ e₁ F₁,
    aloneAt setting fuel t e F = ((.ok r, e₁), F₁) ∧ e₁.Detached ∧ F.Alike F₁

abbrev anyLink : Link := .free AnyName

variable {o : Options} {s s' : Store} {t r : TypeId} {fuel fuel' : Nat} {e e' : Evaluator}

theorem Yields.mono (h : Yields ⟨.empty, o⟩ fuel s t r) (hs : s.Extends s') :
    Yields ⟨.empty, o⟩ fuel s' t r where
  closed := hs.closed h.closed
  result := hs.closed h.result
  runs e F he hF hext := h.runs e F he hF (hs.trans hext)

theorem agrees_empty (s : Store) : Environment.empty.Agrees AnyName s .empty where
  get_eq _ _ := rfl
  body _ _ _ h := by cases h
  default _ _ _ h := by cases h

section checks

variable {R : Regime anyLink} {D : Diagnostic → Prop} {inner : TypeId → Eval TypeId}

theorem same_fresh (depth : Nat) (s : Store) :
    Same anyLink s (Evaluator.fresh o depth none) (Evaluator.fresh o depth none) :=
  .fresh o depth fun _ => rfl

theorem evaluates_evaluateAt_empty (depth : Nat) :
    Evaluates anyLink s (evaluateAt ⟨.empty, o⟩ depth) (evaluateAt ⟨.empty, o⟩ depth) :=
  evaluates_evaluateAt (.of_agrees (agrees_empty s)) depth

theorem aloneAt_start : (aloneAt ⟨.empty, o⟩ fuel t (.fresh o 0 none) : Build _) =
    evaluateAt ⟨.empty, o⟩ o.maxEvaluationDepth.toNat t (.fresh o 0 none) :=
  funext fun s => aloneAt_fresh o none s

/-- The nested evaluations of a check that an evaluation without a history asks for. -/
theorem resolves_alone : Resolves anyLink s
    ⟨evaluateAt ⟨.empty, o⟩ o.maxEvaluationDepth.toNat, .fresh o 0 none⟩
    ⟨aloneAt ⟨.empty, o⟩ fuel, .fresh o 0 none⟩ := by
  intro s₁ h₁ t ht
  dsimp only
  rw [aloneAt_start]
  exact evaluates_evaluateAt_empty _ s₁ (.refl s₁) t ht _ _ (same_fresh 0 s₁)

theorem ends_conclude {answer answer' : Bool × Checker} (h : answer'.1 = answer.1)
    (hs : s.Formed) (he : R.fit s e) : R.Ends s (conclude answer) (conclude answer') e := by
  let _ := R.runs
  have _ := R.steady
  have hfollows : Follows anyLink s (conclude answer) (conclude answer') := by
    unfold conclude
    rw [h]
    exact bind_value (follows_reportAll False.elim) fun _ _ _ _ _ => pure_plain
  exact hfollows hs e he

/-- What a check reports, the evaluation that asked for it reports. -/
theorem mem_conclude {answer : Bool × Checker} (h : ∃ d ∈ answer.2.diagnostics, D d) (e : Evaluator)
    (s : Store) : ∃ d ∈ (conclude answer e s).1.2.diagnostics, D d :=
  marked_bind (G := fun _ _ _ => True) (marked_reportAll h e s) fun _ => Pairs.pure answer.1

/-- Asking for assignability, when the check that is asked for agrees with one whose nested
evaluations start at the top. -/
theorem decides_alone (hready : ∀ e, R.ready e → e.guard.depth = 0)
    (hclear : ∀ e, R.clear e → ∀ d ∈ e.diagnostics, ¬D d)
    (hself : ∀ e s, R.fit s e → Resolves anyLink s ⟨inner, .fresh o e.guard.depth none⟩
      ⟨inner, .fresh o e.guard.depth none⟩)
    (hcheck : ∀ e s source target, R.fit s e → CheckTogether D
      (Check.isAssignable ⟨inner, .fresh o e.guard.depth none⟩ source target (.fresh o))
      (Check.isAssignable ⟨evaluateAt ⟨.empty, o⟩ o.maxEvaluationDepth.toNat, .fresh o 0 none⟩
        source target (.fresh o))) :
    @Decides anyLink R.runs s (isAssignable inner ⟨.empty, o⟩)
      (isAssignable (aloneAt ⟨.empty, o⟩ fuel) ⟨.empty, o⟩) := by
  intro s₁ _ source target hsource htarget hs₁ e he
  have hstart : Same anyLink s₁ (Checker.fresh o) (Checker.fresh o) := .fresh o
  have hresolves : Resolves anyLink s₁
      ⟨evaluateAt ⟨.empty, o⟩ o.maxEvaluationDepth.toNat, .fresh o 0 none⟩
      ⟨aloneAt ⟨.empty, o⟩ fuel, .fresh o 0 none⟩ := resolves_alone
  obtain ⟨hgrows, hformed, _, _⟩ :=
    follows_run (follows_checkIsAssignable (hself e s₁ he) hsource htarget) hstart hs₁
  have hlater := (follows_run (follows_checkIsAssignable hresolves hsource htarget) hstart hs₁).later
  have htogether := hcheck e s₁ source target he s₁
  have hrun : isAssignable inner ⟨.empty, o⟩ source target e s₁ =
      let r := Check.isAssignable ⟨inner, .fresh o e.guard.depth none⟩ source target (.fresh o) s₁
      conclude r.1 e r.2 := isAssignable_run source target e s₁
  dsimp only at hrun
  generalize Check.isAssignable ⟨inner, .fresh o e.guard.depth none⟩ source target (.fresh o) s₁ = a
    at hgrows hformed htogether hrun
  have hend : ∀ answer : Bool × Checker, answer.1 = a.1.1 →
      R.Ends a.2 (conclude a.1) (conclude answer) e := fun _ h =>
    ends_conclude h hformed (R.mono hgrows he)
  have h₀ := hend a.1 rfl
  refine ⟨?_, ?_, ?_, ?_, ?_, ?_⟩ <;> rw [hrun]
  · exact hgrows.trans h₀.grows
  · exact h₀.formed
  · exact h₀.fit
  · exact h₀.clear
  · exact h₀.partner
  · intro hc b hb e' F he' hF hext
    rcases htogether with hmark | ⟨hvalue, hstore, _⟩
    · obtain ⟨d, hd, hD⟩ := mem_conclude hmark e a.2
      exact absurd hD (hclear _ hc d hd)
    · rw [hstore] at hlater
      obtain ⟨halike, ⟨hsame, _⟩, _⟩ := hlater F (h₀.grows.trans hext)
      have hrun' : isAssignable (aloneAt ⟨.empty, o⟩ fuel) ⟨.empty, o⟩ source target e' F =
          let r := Check.isAssignable ⟨aloneAt ⟨.empty, o⟩ fuel, .fresh o e'.guard.depth none⟩ source
            target (.fresh o) F
          conclude r.1 e' r.2 := isAssignable_run source target e' F
      rw [hready e' he'] at hrun'
      obtain ⟨c, e₁, F₁, hconclude, hready₁, halike', hbc⟩ := (hend _ (hsame.trans hvalue)).later
        hc b hb e' _ he' (halike.formed hF) (hext.trans halike.toExtends)
      exact ⟨c, e₁, F₁, hrun'.trans hconclude, hready₁, halike.trans halike', hbc⟩

end checks

section fuel

/-- Neither evaluator has a history. -/
def detached : Regime anyLink where
  fit _ := Evaluator.Detached
  clear _ := True
  ready := Evaluator.Detached
  mono _ he := he
  fit_idle h he := he.idle h
  clear_idle _ h := h
  ready_idle h he := he.idle h
  patience he := he.patience

theorem ends_congr {R : Regime anyLink} {α : Type} [Paired anyLink α] {m m₁ m' m₁' : Eval α}
    (h : R.Ends s m₁ m₁' e) (hm : m e s = m₁ e s)
    (hm' : ∀ e' F, R.ready e' → m' e' F = m₁' e' F) : R.Ends s m m' e := by
  refine ⟨?_, ?_, ?_, ?_, ?_, ?_⟩ <;> rw [hm]
  · exact h.grows
  · exact h.formed
  · exact h.fit
  · exact h.clear
  · exact h.partner
  · intro hc a ha e' F he' hF hext
    rw [hm' e' F he']
    exact h.later hc a ha e' F he' hF hext

/-- References are unknown when there are no aliases. -/
theorem follows_reference_empty [Runs anyLink Eval] [Steady anyLink]
    {inner inner' : TypeId → Eval TypeId} (ht : s.Closed AnyName t) (name : String)
    (args args' : List TypeId) :
    Follows anyLink s (Eval.reference inner ⟨.empty, o⟩ t name args)
      (Eval.reference inner' ⟨.empty, o⟩ t name args') :=
  Runs.bind (follows_evalOrigin ht) fun _ _ _ _ _ _ =>
    bind_value (follows_evalReport False.elim) fun _ _ hs _ _ => pure_value (ok_of_fixed hs rfl)

theorem ends_unlessNested {step step' : Eval TypeId} (ht : s.Closed AnyName t) (hs : s.Formed)
    (he : e.Detached) (h : detached.Ends s step step' e) :
    detached.Ends s (unlessNested ⟨.empty, o⟩ t step) (unlessNested ⟨.empty, o⟩ t step') e := by
  cases hfixed : t.isFixed with
  | true =>
      have hstep : ∀ {step : Eval TypeId} {e s}, e.Detached →
          unlessNested ⟨.empty, o⟩ t step e s = (pure t : Eval TypeId) e s := fun he =>
        (unlessNested_run he _).trans (if_pos hfixed)
      exact ends_congr (Regime.ends_pure hs he ⟨rfl, ht⟩) (hstep he) fun _ _ he' => hstep he'
  | false =>
      have hstep : ∀ {step : Eval TypeId} {e s}, e.Detached →
          unlessNested ⟨.empty, o⟩ t step e s = step e s := fun he =>
        (unlessNested_run he _).trans (if_neg (by simp [hfixed]))
      exact ends_congr h (hstep he) fun _ _ he' => hstep he'

/-- Checks that evaluations without a history ask for do not depend on the fuel. -/
theorem decides_aloneAt : @Decides anyLink detached.runs s
    (isAssignable (aloneAt ⟨.empty, o⟩ fuel) ⟨.empty, o⟩)
    (isAssignable (aloneAt ⟨.empty, o⟩ fuel') ⟨.empty, o⟩) := by
  refine decides_alone (D := fun _ => False) (fun e he => he.depth) (fun _ _ _ _ => id) ?_ ?_
  · intro e s he s₂ h₂ t ht
    have hresolves : Resolves anyLink s₂
        ⟨evaluateAt ⟨.empty, o⟩ o.maxEvaluationDepth.toNat, .fresh o 0 none⟩
        ⟨aloneAt ⟨.empty, o⟩ fuel, .fresh o 0 none⟩ := resolves_alone
    have hresolve := hresolves s₂ (.refl s₂) t ht
    dsimp only at hresolve ⊢
    rw [aloneAt_start] at hresolve
    rw [he.depth, aloneAt_start]
    exact hresolve
  · intro e s source target he
    rw [he.depth]
    refine checkTogether_isAssignable (identical o) (fun t s => .inr ?_) source target
    dsimp only
    rw [aloneAt_fresh]
    exact ⟨rfl, rfl, rfl⟩

/-- A result without a history stays with more fuel. -/
theorem evaluates_aloneAt (h : fuel ≤ fuel') :
    @Evaluates anyLink detached.runs s (aloneAt ⟨.empty, o⟩ fuel) (aloneAt ⟨.empty, o⟩ fuel') := by
  induction fuel generalizing fuel' s with
  | zero =>
      intro s₁ _ t ht hs₁ e he
      have hend : ∀ step', detached.Ends s₁ (throw .mk : Eval TypeId) step' e := fun _ =>
        Regime.ends_error (R := detached) rfl (.refl s₁) hs₁ he id
      cases fuel' <;> exact ends_unlessNested ht hs₁ he (hend _)
  | succ fuel ih =>
      intro s₁ _ t ht hs₁ e he
      obtain ⟨fuel', rfl⟩ : ∃ n, fuel' = n + 1 := ⟨fuel' - 1, by omega⟩
      let _ := detached.runs
      have _ := detached.steady
      have hi := ih (s := s₁) (Nat.le_of_succ_le_succ h)
      refine ends_unlessNested ht hs₁ he ?_
      have hnode : Follows anyLink s₁
          (do node (aloneAt ⟨.empty, o⟩ fuel) ⟨.empty, o⟩ t (← Build.node t) : Eval TypeId)
          (do node (aloneAt ⟨.empty, o⟩ fuel') ⟨.empty, o⟩ t (← Build.node t)) := by
        refine bind_value (Runs.lift (follows_node ht)) fun s₂ h₂ _ n hn => ?_
        exact follows_evalNode (.of_agrees (agrees_empty s₂)) (hi.mono h₂) decides_aloneAt
          (h₂.closed ht) hn fun _ _ _ => follows_reference_empty (h₂.closed ht) _ _ _
      exact hnode hs₁ e he

theorem Yields.of_le (h : Yields ⟨.empty, o⟩ fuel s t r) (hle : fuel ≤ fuel') :
    Yields ⟨.empty, o⟩ fuel' s t r := by
  refine ⟨h.closed, h.result, fun e F he hF hext => ?_⟩
  obtain ⟨e₁, F₁, hrun, _, halike⟩ := h.runs e F he hF hext
  have hend := evaluates_aloneAt (o := o) hle F (.refl F) t (hext.closed h.closed) hF e he
  obtain ⟨_, e₂, F₂, hrun', he₂, halike', rfl, _⟩ := hend.later trivial r (by rw [hrun]) e F he hF
    (by rw [hrun]; exact halike.symm.toExtends)
  exact ⟨e₂, F₂, hrun', he₂, halike'⟩

theorem exists_detached : ∃ e : Evaluator, e.Detached :=
  ⟨⟨⟨[.error], 0, 0, 0, 0, 0, false⟩, ∅, [], 0, [], false, #[], none⟩, by simp, rfl, rfl⟩

/-- What a type evaluates to without a history is determined by the type. -/
theorem Yields.unique {F s₁ s₂ : Store} {r₁ r₂ : TypeId} (h₁ : Yields ⟨.empty, o⟩ fuel s₁ t r₁)
    (h₂ : Yields ⟨.empty, o⟩ fuel' s₂ t r₂) (hF : F.Formed) (hext₁ : s₁.Extends F)
    (hext₂ : s₂.Extends F) : r₁ = r₂ := by
  obtain ⟨e, he⟩ := exists_detached
  obtain ⟨e₁, F₁, hrun₁, _⟩ := (h₁.of_le (le_max_left fuel fuel')).runs e F he hF hext₁
  obtain ⟨e₂, F₂, hrun₂, _⟩ := (h₂.of_le (le_max_right fuel fuel')).runs e F he hF hext₂
  rw [hrun₁] at hrun₂
  exact Except.ok.inj (congrArg (·.1.1) hrun₂)

end fuel

end Context

end TypeResolution
