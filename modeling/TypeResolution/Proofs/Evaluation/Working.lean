import TypeResolution.Proofs.Evaluation.Turns

/-!
Runs of an evaluator that is not cancelled and has hit no limit, as equations: what it does with a type
that it remembers, enters, or finds nested too deeply.
-/

namespace TypeResolution.Eval

variable {o : Options} {setting : Setting} {s s' : Store} {t element r u : TypeId} {active : List TypeId}
  {steps steps' productive depth : Nat} {cache cache' : Std.HashMap TypeId TypeId} {e e' : Evaluator}
  {inner : TypeId → Eval TypeId}

/-- An evaluator that is at work on the given types and has hit no limit. -/
def working (o : Options) (active : List TypeId) (steps productive : Nat)
    (cache : Std.HashMap TypeId TypeId) : Evaluator :=
  { Evaluator.fresh o 0 none with
    guard := ⟨active, active.length, 0, steps, o.maxEvaluationDepth.toNat, o.maxIterations.toNat, false⟩
    productive
    cache }

theorem working_enter (hactive : t ∉ active) (hroom : active.length < o.maxEvaluationDepth.toNat)
    (hsteps : steps < o.maxIterations.toNat) :
    (working o active steps productive cache).guard.enter t =
      (.entered, (working o (t :: active) (steps + 1) productive cache).guard) := by
  have hword : o.maxIterations.toNat < UInt32.size := o.maxIterations.toNat_lt
  have hcount : min (steps + 1) (UInt32.size - 1) = steps + 1 := by omega
  unfold Recursion.Guard.enter
  dsimp only [working, Recursion.Guard.tick]
  rw [hcount, if_neg (Nat.not_lt_of_le hsteps), if_neg (Nat.not_le_of_lt hroom), if_neg hactive]
  rfl

theorem evaluate_start (env : Environment) (t : TypeId) (s : Store) :
    evaluate ⟨env, o⟩ t (.fresh o 0 none) s =
      evaluateAt ⟨env, o⟩ o.maxEvaluationDepth.toNat t (working o [] 0 0 ∅) s := rfl

/-- What is remembered is given as it is. -/
theorem evaluateAt_known {r : TypeId} (hfixed : t.isFixed = false) (hpatience : e.patience = none)
    (hknown : e.cache[t]? = some r) : evaluateAt setting depth t e s = ((.ok r, e), s) := by
  have hpoll : poll.run e s = ((.ok (), e), s) := by rw [poll_run, hpatience]
  have hget : (get : Eval Evaluator).run e s = ((.ok e, e), s) := rfl
  have hguarded : ∀ work, (guarded work setting t).run e s = ((.ok r, e), s) := by
    intro work
    unfold guarded
    rw [if_neg (by simp [hfixed]), run_bind, hpoll]
    simp only [run_bind, hget, hknown]
    rfl
  cases depth <;> exact hguarded _

theorem evaluateAt_entering (hfixed : t.isFixed = false) (hactive : t ∉ active)
    (hunknown : cache[t]? = none) (hroom : active.length < o.maxEvaluationDepth.toNat)
    (hsteps : steps < o.maxIterations.toNat) :
    evaluateAt setting (depth + 1) t (working o active steps productive cache) s =
      finish t (node (evaluateAt setting depth) setting t (s.node t)
        (working o (t :: active) (steps + 1) productive cache) s) := by
  have henter : (working o active steps productive cache).guard.enter t = _ :=
    working_enter hactive hroom hsteps
  refine (guarded_entered hfixed rfl hunknown rfl (congrArg Prod.fst henter)).trans ?_
  rw [henter]
  rfl

theorem evaluateAt_entered (hfixed : t.isFixed = false) (hactive : t ∉ active)
    (hunknown : cache[t]? = none) (hroom : active.length < o.maxEvaluationDepth.toNat)
    (hsteps : steps < o.maxIterations.toNat)
    (hwork : node (evaluateAt setting depth) setting t (s.node t)
      (working o (t :: active) (steps + 1) productive cache) s =
        ((.ok r, working o (t :: active) steps' productive cache'), s')) :
    evaluateAt setting (depth + 1) t (working o active steps productive cache) s =
      ((.ok r, working o active steps' productive (cache'.insert t r)), s') := by
  rw [evaluateAt_entering hfixed hactive hunknown hroom hsteps, hwork]
  simp [finish, working, Recursion.Guard.leave]

theorem productively_run {α : Type} {m : Eval α} {x : Except Cancelled α}
    (h : m { e with productive := e.productive + 1 } s = ((x, e'), s')) :
    productively m e s = ((x, { e' with productive := e'.productive - 1 }), s') := by
  have hrun : productively m e s = (((m { e with productive := e.productive + 1 } s).1.1,
      { (m { e with productive := e.productive + 1 } s).1.2 with
        productive := (m { e with productive := e.productive + 1 } s).1.2.productive - 1 }),
      (m { e with productive := e.productive + 1 } s).2) := rfl
  rw [hrun, h]

/-- An array whose element stays as it is. -/
theorem node_array (hs : s.Formed) (ht : t.index < s.size) (hn : s.node t = .array element)
    (helement : inner element { e with productive := e.productive + 1 } s = ((.ok element, e'), s)) :
    node inner setting t (s.node t) e s =
      ((.ok t, { e' with productive := e'.productive - 1 }), s) := by
  have hinner : (productively (inner element)).run e s =
      ((.ok element, { e' with productive := e'.productive - 1 }), s) := productively_run helement
  have hintern : (liftM (Build.array element) : Eval TypeId).run
      { e' with productive := e'.productive - 1 } s =
        ((.ok t, { e' with productive := e'.productive - 1 }), s) := by
    change ((Except.ok (s.intern (.array element)).1, _), (s.intern (.array element)).2) = _
    rw [hs.intern_node ht hn]
  rw [hn]
  exact (run_bind _ _ _ _).trans (by rw [hinner]; exact hintern)

theorem evaluateAt_array (hs : s.Formed) (ht : t.index < s.size) (hn : s.node t = .array element)
    (hactive : t ∉ active) (hunknown : cache[t]? = none)
    (hroom : active.length < o.maxEvaluationDepth.toNat) (hsteps : steps < o.maxIterations.toNat)
    (helement : evaluateAt setting depth element
      (working o (t :: active) (steps + 1) (productive + 1) cache) s =
        ((.ok element, working o (t :: active) steps' (productive + 1) cache'), s)) :
    evaluateAt setting (depth + 1) t (working o active steps productive cache) s =
      ((.ok t, working o active steps' productive (cache'.insert t t)), s) := by
  have hfixed := hs.not_isFixed hn (by simp) (by simp) (by simp)
  refine evaluateAt_entered hfixed hactive hunknown hroom hsteps ?_
  exact (node_array hs ht hn helement).trans (by simp [working])

theorem subtypeAt_self {nested : Check.Nested} (u : TypeId) (c : Checker) :
    Check.subtypeAt nested depth u u c s = ((true, c), s) := by
  have hpair : ∀ check, Check.pair check u u c s = ((true, c), s) := by
    intro check
    unfold Check.pair
    rw [if_pos rfl]
    rfl
  cases depth <;> exact hpair _

/-- A closed type that is compared with itself, and binds no names. -/
theorem conditional_self {c : Conditional}
    {e₁ e₂ e₃ : Evaluator} (hinfer : c.infer = []) (hany : u ≠ .any)
    (hsplit : c.distributive → u ≠ .never ∧ ∀ members, s.node u ≠ .union members)
    (hcheck : inner c.check e s = ((.ok u, e₁), s))
    (hpattern : inner c.pattern e₁ s = ((.ok u, e₂), s)) (hclosed : s.containsParams u = false)
    (hclosed' : s.containsParamsExcept [] u = false)
    (hbranch : inner c.whenTrue e₂ s = ((.ok r, e₃), s)) :
    Eval.conditional inner setting t c e s = ((.ok r, e₃), s) := by
  have hx : (inner c.check).run e s = ((.ok u, e₁), s) := hcheck
  have hy : (inner c.pattern).run e₁ s = ((.ok u, e₂), s) := hpattern
  have hplain := @conditional_plain inner setting t u u c e s hinfer hany
  dsimp only at hplain
  rw [hx] at hplain
  dsimp only at hplain
  rw [hy] at hplain
  dsimp only at hplain
  rw [subtypeAt_self] at hplain
  exact (hplain rfl rfl hsplit hclosed hclosed' rfl rfl).trans hbranch

theorem exceeded_of_depth (hfixed : t.isFixed = false) (hactive : t ∉ active)
    (hunknown : cache[t]? = none) (hroom : o.maxEvaluationDepth.toNat ≤ active.length) :
    ∃ e', evaluateAt setting depth t (working o active steps productive cache) s = ((.ok t, e'), s) ∧
      e'.guard.exceeded := by
  have hhalts : ∀ work, ∃ e', guarded work setting t (working o active steps productive cache) s =
      ((.ok t, e'), s) ∧ e'.guard.exceeded := by
    intro work
    have hturn : Turn work setting t (working o active steps productive cache) s
        (guarded work setting t (working o active steps productive cache) s) := turn_guarded hfixed rfl
    generalize guarded work setting t (working o active steps productive cache) s = x at hturn
    cases hturn with
    | known h => cases hunknown.symm.trans h
    | halted h => exact ⟨_, rfl, h.exceeded⟩
    | cycle h => exact absurd h hactive
    | entered _ _ hdepth => exact absurd hdepth (Nat.not_lt_of_le hroom)
  cases depth <;> exact hhalts _

theorem exceeded_of_element (hs : s.Formed) (ht : t.index < s.size) (hn : s.node t = .array element)
    (hactive : t ∉ active) (hunknown : cache[t]? = none)
    (hroom : active.length < o.maxEvaluationDepth.toNat) (hsteps : steps < o.maxIterations.toNat)
    (helement : ∃ e', evaluateAt setting depth element
      (working o (t :: active) (steps + 1) (productive + 1) cache) s = ((.ok element, e'), s) ∧
        e'.guard.exceeded) :
    ∃ e', evaluateAt setting (depth + 1) t (working o active steps productive cache) s =
      ((.ok t, e'), s) ∧ e'.guard.exceeded := by
  obtain ⟨e', helement, hexceeded⟩ := helement
  have hfixed := hs.not_isFixed hn (by simp) (by simp) (by simp)
  rw [evaluateAt_entering hfixed hactive hunknown hroom hsteps, node_array hs ht hn helement]
  exact ⟨_, rfl, hexceeded⟩

end TypeResolution.Eval
