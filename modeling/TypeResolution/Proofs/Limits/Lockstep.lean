import TypeResolution.Proofs.Limits.Evaluation

/-!
Whole runs side by side. The first run is bounded by the guard's limit on nesting. The second one
is any run that follows the same rules at each nesting that the first one reaches.
-/

namespace TypeResolution

/-- A guard with this limit on nesting, at or above its base. -/
structure Recursion.Guard.Within {κ : Type} (limit : Nat) (g : Guard κ) : Prop where
  maxDepth : g.maxDepth = limit
  base : g.baseDepth ≤ g.depth

/-- Checks of pairs, one for each nesting, that ask the guard first. Below the limit they follow
the rules, and components are checked one level deeper. -/
def Check.Unfolds (nested : Check.Nested) (limit : Nat) (checks : Nat → Check.Inner) : Prop :=
  ∀ source target (c : Checker) s, c.guard.Within limit → ∃ check,
    checks c.guard.depth source target c s = Check.pair check source target c s ∧
      (c.guard.depth < limit → check = Check.rules nested (checks (c.guard.depth + 1)))

/-- Evaluations, one for each nesting, that ask the guard first. Below the limit they evaluate the
node of the type, and components are evaluated one level deeper. -/
def Eval.Unfolds (setting : Setting) (evaluations : Nat → TypeId → Eval TypeId) : Prop :=
  ∀ t (e : Evaluator) s, e.guard.Within setting.options.maxEvaluationDepth.toNat → ∃ work,
    evaluations e.guard.depth t e s = Eval.guarded work setting t e s ∧
      (e.guard.depth < setting.options.maxEvaluationDepth.toNat →
        work = Eval.node (evaluations (e.guard.depth + 1)) setting)

theorem Check.unfolds_subtypeAt (nested : Check.Nested) (limit : Nat) :
    Check.Unfolds nested limit fun depth => Check.subtypeAt nested (limit - depth) := by
  intro source target c s _
  by_cases hlt : c.guard.depth < limit
  · have hdepth : limit - c.guard.depth = limit - (c.guard.depth + 1) + 1 := by omega
    dsimp only
    rw [hdepth]
    exact ⟨_, rfl, fun _ => rfl⟩
  · have hdepth : limit - c.guard.depth = 0 := by omega
    dsimp only
    rw [hdepth]
    exact ⟨_, rfl, fun h => absurd h hlt⟩

theorem Eval.unfolds_evaluateAt (setting : Setting) : Eval.Unfolds setting fun depth =>
    Eval.evaluateAt setting (setting.options.maxEvaluationDepth.toNat - depth) := by
  intro t e s _
  generalize setting.options.maxEvaluationDepth.toNat = limit
  by_cases hlt : e.guard.depth < limit
  · have hdepth : limit - e.guard.depth = limit - (e.guard.depth + 1) + 1 := by omega
    dsimp only
    rw [hdepth]
    exact ⟨_, rfl, fun _ => rfl⟩
  · have hdepth : limit - e.guard.depth = 0 := by omega
    dsimp only
    rw [hdepth]
    exact ⟨_, rfl, fun h => absurd h hlt⟩

namespace Limits

open Recursion

section ladder

variable {κ : Type} [DecidableEq κ]

/-- No guards at all. -/
abbrev noGuards : GuardRel κ := fun _ _ _ => False

theorem guarding_noGuards {D : Diagnostic → Prop} : Guarding D (noGuards : GuardRel κ) noGuards :=
  ⟨fun _ _ _ _ h => h.elim, fun _ _ _ _ h => h, fun _ _ _ h => h.elim⟩

/-- Guards that belong together at each nesting above a base. Those of the first run are `shift`
levels deeper than those of the second one, and enter nothing at their limit. -/
structure Ladder (κ : Type) [DecidableEq κ] (D : Diagnostic → Prop) (shift limit limit' : Nat) where
  rel : Nat → Nat → GuardRel κ
  limit_le : limit ≤ limit' + shift
  depth : ∀ {b k g g' reported}, rel b k g g' reported → g.depth = k + shift ∧ g'.depth = k
  base : ∀ {b k g g' reported}, rel b k g g' reported → g'.baseDepth = b
  maxDepth : ∀ {b k g g' reported}, rel b k g g' reported → g'.maxDepth = limit'
  enters : ∀ {b k}, b ≤ k →
    Guarding D (rel b k) (if k + shift < limit then rel b (k + 1) else noGuards)

namespace Ladder

variable {D : Diagnostic → Prop} {shift limit limit' b k : Nat}
  (ladder : Ladder κ D shift limit limit')

theorem enters_of_lt (hb : b ≤ k) (hk : k + shift < limit) :
    Guarding D (ladder.rel b k) (ladder.rel b (k + 1)) := by
  have h := ladder.enters hb
  rwa [if_pos hk] at h

theorem enters_of_le (hb : b ≤ k) (hk : limit ≤ k + shift) : Guarding D (ladder.rel b k) noGuards := by
  have h := ladder.enters hb
  rwa [if_neg (Nat.not_lt.mpr hk)] at h

theorem within {g g' : Guard κ} {reported : Bool} (h : ladder.rel b k g g' reported) (hb : b ≤ k) :
    g'.Within limit' := by
  refine ⟨ladder.maxDepth h, ?_⟩
  rw [ladder.base h, (ladder.depth h).2]
  exact hb

end Ladder

end ladder

/-- Two runs under options that differ at most in their limits, and how their guards belong
together. Evaluations of the first run are `shift` levels deeper; checks always start at the top. -/
structure Lockstep (D : Diagnostic → Prop) (shift : Nat) (o o' : Options) where
  types : Ladder TypeId D shift o.maxEvaluationDepth.toNat o'.maxEvaluationDepth.toNat
  pairs : Ladder (TypeId × TypeId) D 0 o.maxSubtypeDepth.toNat o'.maxSubtypeDepth.toNat
  freshType : ∀ k, types.rel k k (.ofLimits o.maxEvaluationDepth o.maxIterations (k + shift))
    (.ofLimits o'.maxEvaluationDepth o'.maxIterations k) false
  freshPair : pairs.rel 0 0 (.ofLimits o.maxSubtypeDepth o.maxIterations 0)
    (.ofLimits o'.maxSubtypeDepth o'.maxIterations 0) false
  excessPropertyCheck : o'.excessPropertyCheck = o.excessPropertyCheck
  preserveLiterals : o'.preserveLiterals = o.preserveLiterals

/-- The second run need only be known at the states that it starts in. -/
theorem stateTogether_of_states {σ α : Type} {C : Coupling σ} {m m' : StateT σ Build α}
    (hstays : ∀ x s, C.marked x → C.marked (m x s).1.2)
    (h : ∀ x y s, C.rel x y → ∃ m₁, m' y s = m₁ y s ∧ StateTogether C m m₁) :
    StateTogether C m m' := by
  refine ⟨hstays, fun x y s hxy => ?_⟩
  obtain ⟨m₁, heq, htogether⟩ := h x y s hxy
  rw [heq]
  exact htogether.same x y s hxy

section checks

open Check

variable {D : Diagnostic → Prop} {nested nested' : Nested} {shift : Nat} {o o' : Options}

/-- Without guards that belong together only the marks matter. -/
theorem together_noChecks {α : Type} {m m' : Check α} (h : Together (checkers D noGuards) m m) :
    Together (checkers D noGuards) m m' :=
  ⟨h.stays, fun _ _ _ hrel => hrel.choose_spec.2.elim⟩

/-- A check asks the guard first; what it does then leaves marks in place. -/
theorem subtypeAt_eq_pair (nested : Nested) (depth : Nat) : ∃ check,
    subtypeAt nested depth = pair check ∧
      ∀ source target, Together (checkers D noGuards) (check source target)
        (check source target) := by
  have hnested : NestedTogether D nested nested := fun _ _ => .inr ⟨rfl, rfl, rfl⟩
  induction depth with
  | zero => exact ⟨_, rfl, fun source target => together_fail _⟩
  | succ depth ih =>
      obtain ⟨check, heq, hcheck⟩ := ih
      refine ⟨_, rfl, together_rules hnested fun source target => ?_⟩
      rw [heq]
      exact together_pair guarding_noGuards (hcheck source target)

theorem stays_subtypeAt (depth : Nat) (source target : TypeId) (c : Checker) (s : Store)
    (hc : ∃ d ∈ c.diagnostics, D d) :
    ∃ d ∈ (subtypeAt nested depth source target c s).1.2.diagnostics, D d := by
  obtain ⟨check, heq, hcheck⟩ := subtypeAt_eq_pair (D := D) nested depth
  rw [heq]
  exact (together_pair guarding_noGuards (hcheck source target)).stays c s hc

variable (run : Lockstep D shift o o')

/-- At the limit nothing is entered, so the rest of the check is of no matter. -/
theorem together_subtypeAt_of_le {checks : Nat → Inner}
    (hchecks : Unfolds nested' o'.maxSubtypeDepth.toNat checks) {b k : Nat} (hb : b ≤ k)
    (hk : o.maxSubtypeDepth.toNat ≤ k) (depth : Nat) (source target : TypeId) :
    Together (checkers D (run.pairs.rel b k)) (subtypeAt nested depth source target)
      (checks k source target) := by
  refine stateTogether_of_states (stays_subtypeAt depth source target) ?_
  rintro c _ s ⟨g, rfl, hg⟩
  obtain ⟨check, heq, _⟩ := hchecks source target { c with guard := g } s (run.pairs.within hg hb)
  rw [(run.pairs.depth hg).2] at heq
  obtain ⟨check₀, heq₀, hcheck₀⟩ := subtypeAt_eq_pair (D := D) nested depth
  refine ⟨_, heq, ?_⟩
  rw [heq₀]
  exact together_pair (run.pairs.enters_of_le hb hk) (together_noChecks (hcheck₀ source target))

theorem together_subtypeAt (hn : NestedTogether D nested nested') {checks : Nat → Inner}
    (hchecks : Unfolds nested' o'.maxSubtypeDepth.toNat checks) {depth b k : Nat} (hb : b ≤ k)
    (hdepth : o.maxSubtypeDepth.toNat ≤ k + depth) (source target : TypeId) :
    Together (checkers D (run.pairs.rel b k)) (subtypeAt nested depth source target)
      (checks k source target) := by
  induction depth generalizing k source target with
  | zero => exact together_subtypeAt_of_le run hchecks hb hdepth 0 source target
  | succ depth ih =>
      by_cases hk : o.maxSubtypeDepth.toNat ≤ k
      · exact together_subtypeAt_of_le run hchecks hb hk (depth + 1) source target
      replace hk := Nat.lt_of_not_le hk
      refine stateTogether_of_states (stays_subtypeAt (depth + 1) source target) ?_
      rintro c _ s ⟨g, rfl, hg⟩
      obtain ⟨check, heq, hcheck⟩ :=
        hchecks source target { c with guard := g } s (run.pairs.within hg hb)
      rw [(run.pairs.depth hg).2] at heq hcheck
      refine ⟨_, heq, ?_⟩
      rw [hcheck (Nat.lt_of_lt_of_le hk run.pairs.limit_le)]
      exact together_pair (run.pairs.enters_of_lt hb hk)
        (together_rules hn (ih (by omega) (by omega)) source target)

include run in
/-- Checks that start afresh one beside the other. -/
theorem checkTogether_isAssignable (hn : NestedTogether D nested nested') (source target : TypeId) :
    CheckTogether D (Check.isAssignable nested source target (.fresh o))
      (Check.isAssignable nested' source target (.fresh o')) := by
  intro s
  have hfresh : (checkers D (run.pairs.rel 0 0)).rel (.fresh o) (.fresh o') := by
    refine ⟨(Checker.fresh o').guard, ?_, run.freshPair⟩
    simp only [Checker.fresh, run.excessPropertyCheck]
  have htogether : Together (checkers D (run.pairs.rel 0 0))
      (subtypeAt nested o.maxSubtypeDepth.toNat source target)
      (subtypeAt nested' o'.maxSubtypeDepth.toNat source target) :=
    together_subtypeAt run hn (unfolds_subtypeAt nested' o'.maxSubtypeDepth.toNat) (Nat.zero_le 0)
      (Nat.le_add_left _ _) source target
  rcases htogether.same _ _ s hfresh with hmark | ⟨hvalue, hstore, g, hc, _⟩
  · exact .inl hmark
  · have hds := congrArg Checker.diagnostics hc
    exact .inr ⟨hvalue, hstore, hds⟩

end checks

section evaluations

open Eval

variable {D : Diagnostic → Prop} {P : Mark} {env : Environment} {setting : Setting} {shift : Nat}
  {o o' : Options}

/-- Without guards that belong together only the marks matter. -/
theorem together_noEvaluations {α : Type} {m m' : Eval α}
    (h : Together (evaluators D noGuards) m m) : Together (evaluators D noGuards) m m' :=
  ⟨h.stays, fun _ _ _ hrel => hrel.choose_spec.2.elim⟩

/-- Asking the guard leaves marks in place. -/
theorem lasting_guarded {work : TypeId → Node → Eval TypeId} {t : TypeId}
    (hw : ∀ n, Together (evaluatorsUpTo P noGuards) (work t n) (work t n)) :
    Together (evaluatorsUpTo P noGuards) (guarded work setting t) (guarded work setting t) :=
  together_guardedOf (fun _ _ _ h => h.elim)
    ⟨stays_enterType (fun _ _ _ h => h.elim) hw, fun _ _ _ hrel => hrel.choose_spec.2.elim⟩

/-- An evaluation asks the guard first; what it does then leaves marks in place. -/
theorem evaluateAt_eq_guarded (setting : Setting) (depth : Nat) : ∃ work,
    evaluateAt setting depth = guarded work setting ∧
      ∀ t n, Together (evaluatorsUpTo P noGuards) (work t n) (work t n) := by
  induction depth with
  | zero => exact ⟨_, rfl, fun t n => Pairs.pure t⟩
  | succ depth ih =>
      obtain ⟨work, heq, hwork⟩ := ih
      refine ⟨_, rfl, together_node (fun t => ?_) (fun source target => ?_) rfl⟩
      · rw [heq]
        exact lasting_guarded (hwork t)
      · exact together_isAssignable (D := fun _ => False) (fun _ ⟨_, _, h⟩ => h.elim)
          fun _ _ _ h => h.elim

theorem lasting_evaluateAt (depth : Nat) (t : TypeId) :
    Together (evaluatorsUpTo P noGuards) (evaluateAt setting depth t)
      (evaluateAt setting depth t) := by
  obtain ⟨work, heq, hwork⟩ := evaluateAt_eq_guarded (P := P) setting depth
  rw [heq]
  exact lasting_guarded (hwork t)

/-- The run forgets nothing, whatever it starts from. -/
abbrev Lasting {α : Type} (m : Eval α) : Prop :=
  ∀ P : Mark, Together (evaluatorsUpTo P noGuards) m m

theorem Later.trans {e e₁ e₂ : Evaluator} (h : Later e e₁) (h' : Later e₁ e₂) : Later e e₂ where
  diagnostics d hd := h'.diagnostics d (h.diagnostics d hd)
  known t ht := h'.known t (h.known t ht)
  exceeded he := h'.exceeded (h.exceeded he)
  patience he := h.patience (h'.patience he)

/-- What a run has come to is not forgotten by what follows. -/
theorem later_bind {α β : Type} {m : Eval α} {f : α → Eval β} (hf : ∀ a, Lasting (f a))
    (e : Evaluator) (s : Store) : Later (m e s).1.2 ((m >>= f) e s).1.2 :=
  marked_bind (P := ⟨Later (m e s).1.2, fun h h' => h'.trans h⟩) (G := noGuards) (Later.refl _)
    fun a => hf a _

variable (run : Lockstep D shift o o')

theorem Lockstep.rel_fresh (depth : Nat) (patience : Option Nat) :
    (evaluators D (run.types.rel depth depth)).rel (.fresh o (depth + shift) patience)
      (.fresh o' depth patience) :=
  ⟨_, rfl, run.freshType depth⟩

/-- Nested evaluations that start afresh one beside the other. -/
theorem Lockstep.nestedTogether {inner inner' : TypeId → Eval TypeId} {depth : Nat}
    (h : ∀ t, Together (evaluators D (run.types.rel depth depth)) (inner t) (inner' t)) :
    NestedTogether D ⟨inner, .fresh o (depth + shift) none⟩ ⟨inner', .fresh o' depth none⟩ := by
  intro t s
  rcases (h t).same _ _ s (run.rel_fresh depth none) with hmark | ⟨hvalue, hstore, g, he, _⟩
  · exact .inl hmark
  · have hds := congrArg Evaluator.diagnostics he
    exact .inr ⟨hvalue, hstore, hds⟩

/-- What is done with a type that was entered keeps two runs together if the evaluations of
components do, in the same evaluator and in one that a check creates. -/
theorem Lockstep.together_work {inner inner' : TypeId → Eval TypeId} {b k : Nat}
    (hi : ∀ t, Together (evaluators D (run.types.rel b k)) (inner t) (inner' t))
    (hnested : NestedTogether D ⟨inner, .fresh o (k + shift) none⟩ ⟨inner', .fresh o' k none⟩)
    (t : TypeId) (n : Node) :
    Together (evaluators D (run.types.rel b k)) (node inner ⟨env, o⟩ t n)
      (node inner' ⟨env, o'⟩ t n) := by
  refine together_node hi (fun source target => ?_) run.preserveLiterals t n
  refine together_isAssignable (fun _ h => h) fun g g' reported hg => ?_
  obtain ⟨hdepth, hdepth'⟩ := run.types.depth hg
  rw [hdepth, hdepth']
  exact checkTogether_isAssignable run hnested source target

/-- At the limit nothing is entered, so the rest of the evaluation is of no matter. -/
theorem together_evaluateAt_of_le {evaluations : Nat → TypeId → Eval TypeId}
    (hevaluations : Unfolds ⟨env, o'⟩ evaluations) {b k : Nat} (hb : b ≤ k)
    (hk : o.maxEvaluationDepth.toNat ≤ k + shift) (depth : Nat) (t : TypeId) :
    Together (evaluators D (run.types.rel b k)) (evaluateAt ⟨env, o⟩ depth t)
      (evaluations k t) := by
  refine stateTogether_of_states (lasting_evaluateAt depth t).stays ?_
  rintro e _ s ⟨g, rfl, hg⟩
  obtain ⟨work, heq, _⟩ := hevaluations t { e with guard := g } s (run.types.within hg hb)
  rw [(run.types.depth hg).2] at heq
  obtain ⟨work₀, heq₀, hwork₀⟩ := evaluateAt_eq_guarded (P := reported D) ⟨env, o⟩ depth
  refine ⟨_, heq, ?_⟩
  rw [heq₀]
  exact together_guarded (run.types.enters_of_le hb hk) fun n => together_noEvaluations (hwork₀ t n)

theorem together_evaluateAt {evaluations : Nat → TypeId → Eval TypeId}
    (hevaluations : Unfolds ⟨env, o'⟩ evaluations) {depth b k : Nat} (hb : b ≤ k)
    (hdepth : o.maxEvaluationDepth.toNat ≤ k + shift + depth) (t : TypeId) :
    Together (evaluators D (run.types.rel b k)) (evaluateAt ⟨env, o⟩ depth t)
      (evaluations k t) := by
  induction depth generalizing b k t with
  | zero => exact together_evaluateAt_of_le run hevaluations hb hdepth 0 t
  | succ depth ih =>
      by_cases hk : o.maxEvaluationDepth.toNat ≤ k + shift
      · exact together_evaluateAt_of_le run hevaluations hb hk (depth + 1) t
      replace hk := Nat.lt_of_not_le hk
      refine stateTogether_of_states (lasting_evaluateAt (depth + 1) t).stays ?_
      rintro e _ s ⟨g, rfl, hg⟩
      obtain ⟨work, heq, hwork⟩ := hevaluations t { e with guard := g } s (run.types.within hg hb)
      rw [(run.types.depth hg).2] at heq hwork
      refine ⟨_, heq, ?_⟩
      rw [hwork (Nat.lt_of_add_lt_add_right (Nat.lt_of_lt_of_le hk run.types.limit_le))]
      -- an evaluator that a check creates starts at its base, which is one deeper
      exact together_guarded (run.types.enters_of_lt hb hk) (run.together_work
        (fun t => ih (by omega) (by omega) t)
        (run.nestedTogether fun t => ih (Nat.le_refl _) (by omega) t) t)

end evaluations

end Limits

end TypeResolution
