import Mathlib.Logic.Relation
import TypeResolution.Proofs.Evaluation.Steps
import TypeResolution.Proofs.Limits.Lockstep
import TypeResolution.Proofs.Limits.Nesting

/-!
Evaluation and checking end by their own limits. Both are given by recursive equations in which
only the guard bounds the nesting, and each is the only function that satisfies its equation. A call
makes calls at the next nesting only, and none at the limit. An evaluator that a check creates during an
evaluation starts above the base of the evaluator that asked for the check.
-/

namespace TypeResolution

/-- Entering a key takes the nesting no further than to the limit, or leaves it at the base. -/
theorem Recursion.Guard.Within.depth_enter_le {κ : Type} [DecidableEq κ] {limit : Nat} {g : Guard κ}
    (h : g.Within limit) (hdepth : g.depth ≤ max limit g.baseDepth) (key : κ) :
    (g.enter key).2.depth ≤ max limit g.baseDepth := by
  obtain ⟨rfl, _⟩ := h
  unfold Guard.enter
  dsimp only [Guard.tick]
  split
  · exact hdepth
  split
  · exact hdepth
  split
  · exact hdepth
  · change g.depth + 1 ≤ _
    omega

namespace Limits

open Recursion

section same

variable {κ : Type} [DecidableEq κ] {limit b k : Nat}

/-- The same guard twice, at nesting `k` above the base `b`. -/
structure Same (limit b k : Nat) (g g' : Guard κ) (_reported : Bool) : Prop where
  eq : g' = g
  depth : g.depth = k
  base : g.baseDepth = b
  maxDepth : g.maxDepth = limit

theorem entering_same {g g' : Guard κ} {reported : Bool} (h : Same limit b k g g' reported)
    (key : κ) :
    Entering (fun _ => False) (Same limit b k) (if k < limit then Same limit b (k + 1) else noGuards)
      reported (g.enter key) (g'.enter key) := by
  obtain ⟨rfl, rfl, rfl, rfl⟩ := h
  unfold Guard.enter
  dsimp only [Guard.tick]
  generalize min (g'.iterations + 1) (UInt32.size - 1) = steps
  by_cases hsteps : g'.maxIterations < steps
  · rw [if_pos hsteps]
    exact .exceeded (.inl rfl) fun _ => ⟨rfl, rfl, rfl, rfl⟩
  rw [if_neg hsteps]
  by_cases hdepth : g'.maxDepth ≤ g'.depth
  · rw [if_pos hdepth]
    exact .exceeded (.inr rfl) fun _ => ⟨rfl, rfl, rfl, rfl⟩
  rw [if_neg hdepth, if_pos (Nat.lt_of_not_le hdepth)]
  by_cases hactive : key ∈ g'.active
  · rw [if_pos hactive]
    exact .cycle ⟨rfl, rfl, rfl, rfl⟩
  · rw [if_neg hactive]
    exact .entered ⟨rfl, rfl, rfl, rfl⟩

def same (limit : Nat) : Ladder κ (fun _ => False) 0 limit limit where
  rel := Same limit
  limit_le := Nat.le_refl limit
  depth h := by rw [h.eq]; exact ⟨h.depth, h.depth⟩
  base h := by rw [h.eq]; exact h.base
  maxDepth h := by rw [h.eq]; exact h.maxDepth
  enters {b k} hb := by
    refine ⟨fun g g' reported key h => entering_same h key, fun g g' reported key h => ?_,
      fun g g' reported h => by rw [h.eq]⟩
    split at h
    · obtain ⟨rfl, hdepth, hbase, hmaxDepth⟩ := h
      refine ⟨rfl, ?_, hbase, hmaxDepth⟩
      change max (g'.depth - 1) g'.baseDepth = k
      omega
    · exact h.elim

def identical (o : Options) : Lockstep (fun _ => False) 0 o o where
  types := same o.maxEvaluationDepth.toNat
  pairs := same o.maxSubtypeDepth.toNat
  freshType _ := ⟨rfl, rfl, rfl, rfl⟩
  freshPair := ⟨rfl, rfl, rfl, rfl⟩
  excessPropertyCheck := rfl
  preserveLiterals := rfl

end same

variable {o : Options} {α : Type} {limit : Nat}

theorem eval_eq_of_together {m m' : Eval α} {e : Evaluator} (he : e.guard.Within limit)
    (h : Together (evaluators (fun _ => False) ((same limit).rel e.guard.baseDepth e.guard.depth))
      m m') (s : Store) : m' e s = m e s := by
  have hrel : (evaluators (fun _ => False)
      ((same limit).rel e.guard.baseDepth e.guard.depth)).rel e e :=
    ⟨e.guard, rfl, rfl, rfl, rfl, he.maxDepth⟩
  rcases h.same e e s hrel with ⟨_, _, hfalse⟩ | ⟨hvalue, hstore, g, he', hg⟩
  · exact hfalse.elim
  · rw [hg.eq] at he'
    exact Prod.ext (Prod.ext hvalue he') hstore

theorem check_eq_of_together {m m' : Check α} {c : Checker} (hc : c.guard.Within limit)
    (h : Together (checkers (fun _ => False) ((same limit).rel c.guard.baseDepth c.guard.depth))
      m m') (s : Store) : m' c s = m c s := by
  have hrel : (checkers (fun _ => False)
      ((same limit).rel c.guard.baseDepth c.guard.depth)).rel c c :=
    ⟨c.guard, rfl, rfl, rfl, rfl, hc.maxDepth⟩
  rcases h.same c c s hrel with ⟨_, _, hfalse⟩ | ⟨hvalue, hstore, g, hc', hg⟩
  · exact hfalse.elim
  · rw [hg.eq] at hc'
    exact Prod.ext (Prod.ext hvalue hc') hstore

end Limits

open Limits

namespace Check

variable {nested nested' : Nested} {o : Options}

/-- Checks a pair from the present nesting. -/
def subtype (nested : Nested) : Inner := fun source target => do
  let guard := (← get).guard
  subtypeAt nested (guard.maxDepth - guard.depth) source target

/-- The recursive equation of checks. -/
def Solves (nested : Nested) (limit : Nat) (f : Inner) : Prop :=
  ∀ source target (c : Checker) s, c.guard.Within limit →
    f source target c s = pair (rules nested f) source target c s

theorem Solves.unfolds {limit : Nat} {f : Inner} (h : Solves nested limit f) :
    Unfolds nested limit fun _ => f :=
  fun source target c s hc => ⟨_, h source target c s hc, fun _ => rfl⟩

theorem subtype_run {limit : Nat} {c : Checker} (hc : c.guard.Within limit)
    (source target : TypeId) (s : Store) :
    subtype nested source target c s =
      subtypeAt nested (limit - c.guard.depth) source target c s := by
  rw [← hc.maxDepth]
  rfl

theorem within_fresh : (Checker.fresh o).guard.Within o.maxSubtypeDepth.toNat := ⟨rfl, Nat.le_refl 0⟩

/-- A check under the limits of `o` agrees with every solution of its equation. -/
theorem Solves.eq_subtype {f : Inner} (h : Solves nested' o.maxSubtypeDepth.toNat f)
    (hn : NestedTogether (fun _ => False) nested nested') {c : Checker}
    (hc : c.guard.Within o.maxSubtypeDepth.toNat) (source target : TypeId) (s : Store) :
    f source target c s = subtype nested source target c s := by
  rw [subtype_run hc]
  exact check_eq_of_together hc (together_subtypeAt (identical o) hn h.unfolds hc.base
    (by omega) source target) s

/-- One unfolding of a check asks only for pairs at the next nesting. -/
theorem pair_rules_eq_subtype {f : Inner} {c : Checker}
    (hc : c.guard.Within o.maxSubtypeDepth.toNat)
    (hf : c.guard.depth < o.maxSubtypeDepth.toNat → ∀ source target (c' : Checker) s,
      c'.guard.Within o.maxSubtypeDepth.toNat → c'.guard.depth = c.guard.depth + 1 →
        f source target c' s = subtype nested source target c' s)
    (source target : TypeId) (s : Store) :
    pair (rules nested f) source target c s = subtype nested source target c s := by
  rw [subtype_run hc]
  have hn : NestedTogether (fun _ => False) nested nested := fun _ _ => .inr ⟨rfl, rfl, rfl⟩
  have hb := hc.base
  by_cases hk : c.guard.depth < o.maxSubtypeDepth.toNat
  · have hdepth : o.maxSubtypeDepth.toNat - c.guard.depth =
        o.maxSubtypeDepth.toNat - (c.guard.depth + 1) + 1 := by omega
    rw [hdepth]
    refine check_eq_of_together hc (together_pair ((identical o).pairs.enters_of_lt hb hk)
      (together_rules hn (fun source target => ?_) source target)) s
    refine stateTogether_of_states (stays_subtypeAt _ source target) ?_
    rintro c₁ _ s₁ ⟨g, rfl, hg⟩
    have hwithin := (identical o).pairs.within hg (by omega)
    have hg' := ((identical o).pairs.depth hg).2
    refine ⟨_, (hf hk source target { c₁ with guard := g } s₁ hwithin hg').trans
      (subtype_run hwithin source target s₁), ?_⟩
    rw [hg']
    exact together_subtypeAt (identical o) hn
      (unfolds_subtypeAt nested o.maxSubtypeDepth.toNat) (by omega) (by omega) source target
  · have hdepth : o.maxSubtypeDepth.toNat - c.guard.depth = 0 := by omega
    rw [hdepth]
    exact check_eq_of_together hc (together_pair ((identical o).pairs.enters_of_le hb (by omega))
      (together_noChecks (together_fail _))) s

/-- The check is the only function that satisfies its recursive equation. -/
theorem solves_iff {f : Inner} : Solves nested o.maxSubtypeDepth.toNat f ↔
    ∀ source target (c : Checker) s, c.guard.Within o.maxSubtypeDepth.toNat →
      f source target c s = subtype nested source target c s := by
  refine ⟨fun h source target c s hc => h.eq_subtype (fun _ _ => .inr ⟨rfl, rfl, rfl⟩) hc _ _ _,
    fun h source target c s hc => ?_⟩
  rw [h source target c s hc, pair_rules_eq_subtype hc]
  exact fun _ source target c' s hc' _ => h source target c' s hc'

end Check

namespace Eval

variable {setting : Setting}

/-- The recursive equation of evaluation. -/
def Solves (setting : Setting) (f : TypeId → Eval TypeId) : Prop :=
  ∀ t (e : Evaluator) s, e.guard.Within setting.options.maxEvaluationDepth.toNat →
    f t e s = guarded (node f setting) setting t e s

theorem Solves.unfolds {f : TypeId → Eval TypeId} (h : Solves setting f) :
    Unfolds setting fun _ => f :=
  fun t e s he => ⟨_, h t e s he, fun _ => rfl⟩

theorem evaluate_at {limit : Nat} {e : Evaluator} (he : e.guard.Within limit) (t : TypeId)
    (s : Store) : evaluate setting t e s = evaluateAt setting (limit - e.guard.depth) t e s := by
  rw [← he.maxDepth]
  rfl

theorem within_fresh {o : Options} (depth : Nat) (patience : Option Nat) :
    (Evaluator.fresh o depth patience).guard.Within o.maxEvaluationDepth.toNat :=
  ⟨rfl, Nat.le_refl depth⟩

theorem Solves.eq_evaluate {f : TypeId → Eval TypeId} (h : Solves setting f) {e : Evaluator}
    (he : e.guard.Within setting.options.maxEvaluationDepth.toNat) (t : TypeId) (s : Store) :
    f t e s = evaluate setting t e s := by
  rw [evaluate_at he]
  exact eval_eq_of_together he (together_evaluateAt (identical setting.options) h.unfolds he.base
    (by omega) t) s

/-- One unfolding of an evaluation asks only for types at the next nesting, in the same evaluator or
in a fresh one that starts there. -/
theorem guarded_node_eq_evaluate {f : TypeId → Eval TypeId} {e : Evaluator}
    (he : e.guard.Within setting.options.maxEvaluationDepth.toNat)
    (hf : e.guard.depth < setting.options.maxEvaluationDepth.toNat → ∀ t (e' : Evaluator) s,
      e'.guard.Within setting.options.maxEvaluationDepth.toNat →
      e'.guard.depth = e.guard.depth + 1 → e'.guard.baseDepth = e.guard.baseDepth →
        f t e' s = evaluate setting t e' s)
    (hfresh : e.guard.depth < setting.options.maxEvaluationDepth.toNat → ∀ t s,
      f t (.fresh setting.options (e.guard.depth + 1) none) s =
        evaluate setting t (.fresh setting.options (e.guard.depth + 1) none) s)
    (t : TypeId) (s : Store) :
    guarded (node f setting) setting t e s = evaluate setting t e s := by
  rw [evaluate_at he]
  have hb := he.base
  let run := identical setting.options
  by_cases hk : e.guard.depth < setting.options.maxEvaluationDepth.toNat
  · have hdepth : setting.options.maxEvaluationDepth.toNat - e.guard.depth =
        setting.options.maxEvaluationDepth.toNat - (e.guard.depth + 1) + 1 := by omega
    rw [hdepth]
    have hself : ∀ b, b ≤ e.guard.depth + 1 → ∀ t, Together (evaluators (fun _ => False)
        (run.types.rel b (e.guard.depth + 1)))
        (evaluateAt setting (setting.options.maxEvaluationDepth.toNat - (e.guard.depth + 1)) t)
        (evaluateAt setting (setting.options.maxEvaluationDepth.toNat - (e.guard.depth + 1)) t) :=
      fun b hb t => together_evaluateAt run (unfolds_evaluateAt setting) hb (by omega) t
    refine eval_eq_of_together he (together_guarded (run.types.enters_of_lt hb hk)
      (run.together_work (fun t => ?_) ?_ t)) s
    · refine stateTogether_of_states (lasting_evaluateAt _ t).stays ?_
      rintro e₁ _ s₁ ⟨g, rfl, hg⟩
      have hwithin := run.types.within hg (by omega)
      have hg' := (run.types.depth hg).2
      refine ⟨_, (hf hk t { e₁ with guard := g } s₁ hwithin hg' (run.types.base hg)).trans
        (evaluate_at hwithin t s₁), ?_⟩
      rw [hg']
      exact hself _ (by omega) t
    · intro t s
      have heq := (hfresh hk t s).trans (evaluate_at (within_fresh _ _) t s)
      exact .inr ⟨congrArg (·.1.1) heq, congrArg Prod.snd heq, congrArg (·.1.2.diagnostics) heq⟩
  · have hdepth : setting.options.maxEvaluationDepth.toNat - e.guard.depth = 0 := by omega
    rw [hdepth]
    exact eval_eq_of_together he (together_guarded (run.types.enters_of_le hb (by omega))
      fun n => together_noEvaluations (Pairs.pure t)) s

/-- The evaluation is the only function that satisfies its recursive equation. -/
theorem solves_iff {f : TypeId → Eval TypeId} : Solves setting f ↔
    ∀ t (e : Evaluator) s, e.guard.Within setting.options.maxEvaluationDepth.toNat →
      f t e s = evaluate setting t e s := by
  refine ⟨fun h t e s he => h.eq_evaluate he t s, fun h t e s he => ?_⟩
  rw [h t e s he, guarded_node_eq_evaluate he]
  · exact fun _ t e' s he' _ _ => h t e' s he'
  · exact fun _ t s => h t _ s (within_fresh _ _)

end Eval

/-- The value of a recursive function at `i` is made from its value at `j`: if that one alone were
another one, the value at `i` would be another one. -/
def Depends {ι α : Type} (step : (ι → α) → ι → α) (f : ι → α) (i j : ι) : Prop :=
  ∃ g, (∀ k, k ≠ j → g k = f k) ∧ step g i ≠ step f i

namespace Check

/-- A call of a check. -/
structure Call where
  source : TypeId
  target : TypeId
  checker : Checker
  store : Store

/-- The calls that a call makes, when nested evaluations are made as `nested` says. What a call
gives includes the checker and the store, so that no call goes unnoticed. -/
def Calls (nested : Nested) : Call → Call → Prop :=
  Depends
    (fun f q => pair (rules nested fun a b c s => f ⟨a, b, c, s⟩) q.source q.target q.checker q.store)
    fun q => subtype nested q.source q.target q.checker q.store

theorem Calls.deeper {nested : Nested} {o : Options} {q q' : Call} (h : Calls nested q q')
    (hq : q.checker.guard.Within o.maxSubtypeDepth.toNat) :
    q.checker.guard.depth < o.maxSubtypeDepth.toNat ∧
      q'.checker.guard.Within o.maxSubtypeDepth.toNat ∧
        q'.checker.guard.depth = q.checker.guard.depth + 1 := by
  obtain ⟨f, hf, hne⟩ := h
  refine Classical.byContradiction fun hcon => hne ?_
  have hsubtype : pair (rules nested (subtype nested)) q.source q.target q.checker q.store =
      subtype nested q.source q.target q.checker q.store :=
    pair_rules_eq_subtype hq (fun _ _ _ _ _ _ _ => rfl) _ _ _
  refine (pair_rules_eq_subtype hq (fun hlt source target c s hc hdepth => ?_) _ _ _).trans
    hsubtype.symm
  refine hf ⟨source, target, c, s⟩ fun heq => hcon ?_
  subst heq
  exact ⟨hlt, hc, hdepth⟩

theorem Calls.acc {nested : Nested} {o : Options} {q : Call}
    (hq : q.checker.guard.Within o.maxSubtypeDepth.toNat) :
    Acc (fun q' q => Calls nested q q') q := by
  induction hn : o.maxSubtypeDepth.toNat - q.checker.guard.depth using Nat.strongRecOn
    generalizing q with
  | _ n ih =>
      refine ⟨q, fun q' h => ?_⟩
      obtain ⟨hlt, hq', hdepth⟩ := h.deeper hq
      exact ih _ (by omega) hq' rfl

/-- A checker that is at no pair stays within the limit. -/
theorem Calls.within {nested : Nested} {o : Options} {root q : Call}
    (hroot : root.checker.guard.Within o.maxSubtypeDepth.toNat)
    (hdepth : root.checker.guard.depth ≤ o.maxSubtypeDepth.toNat)
    (h : Relation.ReflTransGen (Calls nested) root q) :
    q.checker.guard.Within o.maxSubtypeDepth.toNat ∧
      q.checker.guard.depth ≤ o.maxSubtypeDepth.toNat := by
  induction h with
  | refl => exact ⟨hroot, hdepth⟩
  | tail _ hcall ih =>
      obtain ⟨hlt, hq', hdepth'⟩ := hcall.deeper ih.1
      exact ⟨hq', by omega⟩

end Check

namespace Eval

/-- A call of the evaluation. -/
structure Call where
  type : TypeId
  evaluator : Evaluator
  store : Store

/-- The calls that a call makes, by itself or by the checks that it asks for. What a call gives
includes the evaluator and the store, so that no call goes unnoticed. -/
def Calls (setting : Setting) : Call → Call → Prop :=
  Depends
    (fun f q => guarded (node (fun t e s => f ⟨t, e, s⟩) setting) setting q.type q.evaluator q.store)
    fun q => evaluate setting q.type q.evaluator q.store

open Classical in
/-- The expansion of an alias calls for its body, one level deeper. -/
theorem calls_body {env : Environment} {options : Options} {t : TypeId} {name : String} {a : Alias}
    {e : Evaluator} {s : Store} (hfixed : t.isFixed = false) (hnode : s.node t = .reference name [])
    (hpatience : e.patience = none) (hcache : e.cache[t]? = none)
    (hexceeded : e.guard.exceeded = false) (henter : (e.guard.enter t).1 = .entered)
    (hget : env.get? name = some a) (hparams : a.params = [])
    (hframes : e.frames.find? (fun f => f.name = name && f.args = []) = none) :
    Calls ⟨env, options⟩ ⟨t, e, s⟩ ⟨a.body, { e with
      guard := (e.guard.enter t).2
      frames := ⟨name, [], e.productive⟩ :: e.frames }, s⟩ := by
  generalize hq : Call.mk a.body { e with
    guard := (e.guard.enter t).2
    frames := ⟨name, [], e.productive⟩ :: e.frames } s = q
  have hvalue : ∀ f : Call → (Except Cancelled TypeId × Evaluator) × Store,
      (guarded (node (fun t e s => f ⟨t, e, s⟩) ⟨env, options⟩) ⟨env, options⟩ t e s).1.1 =
        (f q).1.1 := by
    intro f
    refine (congrArg (·.1.1) (guarded_entered hfixed hpatience hcache hexceeded henter)).trans ?_
    rw [finish_result, hnode, ← hq, node,
      reference_plain (e := { e with guard := (e.guard.enter t).2 }) hget hparams hframes,
      expanding_result]
    rfl
  obtain ⟨other, hother⟩ : ∃ other, other ≠
      (evaluate ⟨env, options⟩ q.type q.evaluator q.store).1.1 := by
    cases (evaluate ⟨env, options⟩ q.type q.evaluator q.store).1.1 with
    | ok _ => exact ⟨.error .mk, by simp⟩
    | error _ => exact ⟨.ok t, by simp⟩
  refine ⟨Function.update (fun q => evaluate ⟨env, options⟩ q.type q.evaluator q.store) q
    ((other, e), s), fun k hk => Function.update_of_ne hk _ _, fun heq => hother ?_⟩
  have hsame := (hvalue _).symm.trans ((congrArg (·.1.1) heq).trans
    (hvalue fun q => evaluate ⟨env, options⟩ q.type q.evaluator q.store))
  rwa [Function.update_self] at hsame

/-- The evaluator of a call is that of the caller, or a check has created it, afresh. -/
theorem Calls.deeper {setting : Setting} {q q' : Call} (h : Calls setting q q')
    (hq : q.evaluator.guard.Within setting.options.maxEvaluationDepth.toNat) :
    q.evaluator.guard.depth < setting.options.maxEvaluationDepth.toNat ∧
      q'.evaluator.guard.Within setting.options.maxEvaluationDepth.toNat ∧
      q'.evaluator.guard.depth = q.evaluator.guard.depth + 1 ∧
      (q'.evaluator.guard.baseDepth = q.evaluator.guard.baseDepth ∨
        q'.evaluator = .fresh setting.options (q.evaluator.guard.depth + 1) none) := by
  obtain ⟨f, hf, hne⟩ := h
  refine Classical.byContradiction fun hcon => hne ?_
  have hevaluate : guarded (node (evaluate setting) setting) setting q.type q.evaluator q.store =
      evaluate setting q.type q.evaluator q.store :=
    guarded_node_eq_evaluate hq (fun _ _ _ _ _ _ _ => rfl) (fun _ _ _ => rfl) _ _
  refine (guarded_node_eq_evaluate hq (fun hlt t e s he hdepth hbase => ?_)
    (fun hlt t s => ?_) _ _).trans hevaluate.symm
  · refine hf ⟨t, e, s⟩ fun heq => hcon ?_
    subst heq
    exact ⟨hlt, he, hdepth, .inl hbase⟩
  · refine hf ⟨t, _, s⟩ fun heq => hcon ?_
    subst heq
    exact ⟨hlt, within_fresh _ _, rfl, .inr rfl⟩

theorem Calls.acc {setting : Setting} {q : Call}
    (hq : q.evaluator.guard.Within setting.options.maxEvaluationDepth.toNat) :
    Acc (fun q' q => Calls setting q q') q := by
  induction hn : setting.options.maxEvaluationDepth.toNat - q.evaluator.guard.depth using
    Nat.strongRecOn generalizing q with
  | _ n ih =>
      refine ⟨q, fun q' h => ?_⟩
      obtain ⟨hlt, hq', hdepth, _⟩ := h.deeper hq
      exact ih _ (by omega) hq' rfl

theorem Calls.within {setting : Setting} {root q : Call}
    (hroot : root.evaluator.guard.Within setting.options.maxEvaluationDepth.toNat)
    (hdepth : root.evaluator.guard.depth ≤
      max setting.options.maxEvaluationDepth.toNat root.evaluator.guard.baseDepth)
    (h : Relation.ReflTransGen (Calls setting) root q) :
    q.evaluator.guard.Within setting.options.maxEvaluationDepth.toNat ∧
      q.evaluator.guard.depth ≤
        max setting.options.maxEvaluationDepth.toNat q.evaluator.guard.baseDepth := by
  induction h with
  | refl => exact ⟨hroot, hdepth⟩
  | tail _ hcall ih =>
      obtain ⟨hlt, hq', hdepth', _⟩ := hcall.deeper ih.1
      exact ⟨hq', by omega⟩

end Eval

namespace Check

/-- The verdict on a pair, given how it is checked. -/
def explained (answer : Check Bool) (source target : TypeId) : Check Verdict := do
  if ← answer then
    return ⟨true, none⟩
  let s ← getThe Store
  let d := (Diagnostic.of .notAssignable [s.text source, s.text target]).withLocation
    (s.origin? (.type source))
  match (← get).failure with
  | none => return ⟨false, some d⟩
  | some reason =>
      return ⟨false, some (d.withRelated (reason.location? s source target) (reason.message s))⟩

theorem run_bind {α β : Type} (m : Check α) (f : α → Check β) (c : Checker) (s : Store) :
    (m >>= f) c s = f (m c s).1.1 (m c s).1.2 (m c s).2 :=
  rfl

theorem explained_congr {answer answer' : Check Bool} {c : Checker} {s : Store}
    (h : answer c s = answer' c s) (source target : TypeId) :
    explained answer source target c s = explained answer' source target c s := by
  unfold explained
  rw [run_bind, run_bind, h]

end Check

namespace Setting

variable {setting : Setting}

theorem evaluate_of_solves {f : TypeId → Eval TypeId} (hf : Eval.Solves setting f)
    (patience : Option Nat) (t : TypeId) (s : Store) :
    setting.evaluate patience t s =
      Eval.outcome (do
        let evaluated ← f t
        Eval.reporting (Reporting.normalize (← Eval.origin? t) evaluated))
        (setting.evaluator patience) s := by
  have heq : (Eval.evaluate setting t).run (setting.evaluator patience) s =
      (f t).run (setting.evaluator patience) s :=
    (hf.eq_evaluate (Eval.within_fresh 0 patience) t s).symm
  have hrun : ∀ k : TypeId → Eval TypeId,
      (Eval.evaluate setting t >>= k).run (setting.evaluator patience) s =
        (f t >>= k).run (setting.evaluator patience) s := by
    intro k
    rw [Eval.run_bind, Eval.run_bind, heq]
  exact congrArg (fun r => (Outcome.mk r.1.1 r.1.2.diagnostics, r.2)) (hrun _)

theorem checkAssignable_of_solves {f : TypeId → Eval TypeId} {g : Check.Inner}
    (hf : Eval.Solves setting f)
    (hg : Check.Solves ⟨f, .fresh setting.options 0 none⟩ setting.options.maxSubtypeDepth.toNat g)
    (source target : TypeId) (s : Store) :
    setting.checkAssignable source target s =
      let r := Check.explained (g source target) source target (.fresh setting.options) s
      (⟨r.1.1, r.1.2.diagnostics⟩, r.2) := by
  have hnested : NestedTogether (fun _ => False) (setting.nested 0)
      ⟨f, .fresh setting.options 0 none⟩ := by
    intro t s
    have heq := hf.eq_evaluate (Eval.within_fresh 0 none) t s
    exact .inr ⟨congrArg (·.1.1) heq, congrArg Prod.snd heq, congrArg (·.1.2.diagnostics) heq⟩
  have heq : Check.isAssignable (setting.nested 0) source target (.fresh setting.options) s =
      g source target (.fresh setting.options) s :=
    (hg.eq_subtype hnested Check.within_fresh source target s).symm
  exact congrArg (fun r => (Outcome.mk r.1.1 r.1.2.diagnostics, r.2))
    (Check.explained_congr heq source target)

end Setting

/-- The walks that no guard watches end: their bounds never bind. -/
structure Store.WalksEnd (s : Store) : Prop where
  unionLeaves : ∀ t fuel, t.index < fuel →
    s.leavesAt Node.unionMembers? fuel t = s.unionLeaves t
  intersectionLeaves : ∀ t fuel, t.index < fuel →
    s.leavesAt Node.intersectionMembers? fuel t = s.intersectionLeaves t
  literalTexts : ∀ t fuel, t.index < fuel →
    Template.literalTextsAt s fuel t = Template.literalTexts s t
  holeAccepts : ∀ before t fuel, t.index < fuel →
    Template.holeAcceptsAt s fuel before t = Template.holeAccepts s before t
  widen : ∀ t fuel, t.index < s.size → t.index < fuel →
    Inference.widenAt fuel t s = Inference.widen t s
  intersection : ∀ site ts ds, (∀ t ∈ ts, t.index < s.size) →
    Reporting.intersection site ts ds s =
      Normal.meetOnce (Reporting.intersection site) (Reporting.intersection site) site ts ds s

theorem Store.Formed.walksEnd {s : Store} (hs : s.Formed) : s.WalksEnd where
  unionLeaves _ _ h := hs.leavesAt_eq_leaves Node.unionMembers?_subset h
  intersectionLeaves _ _ h := hs.leavesAt_eq_leaves Node.intersectionMembers?_subset h
  literalTexts _ _ h := hs.literalTextsAt_eq_literalTexts h
  holeAccepts before _ _ h := hs.holeAcceptsAt_eq_holeAccepts before h
  widen _ _ ht h := hs.widenAt_eq_widen ht h
  intersection _ _ ds hts := (Normal.alike_intersection hts ds hs).1.symm

/-- Evaluations and checks end by the limits of the options alone. -/
structure Setting.Terminates (setting : Setting) : Prop where
  /-- Evaluation is the only solution of its recursive equation, -/
  evaluation : ∀ f, Eval.Solves setting f ↔
    ∀ t (e : Evaluator) s, e.guard.Within setting.options.maxEvaluationDepth.toNat →
      f t e s = Eval.evaluate setting t e s
  /-- and so are checks, whatever evaluates types for them. -/
  checks : ∀ nested f, Check.Solves nested setting.options.maxSubtypeDepth.toNat f ↔
    ∀ source target (c : Checker) s, c.guard.Within setting.options.maxSubtypeDepth.toNat →
      f source target c s = Check.subtype nested source target c s
  /-- Requests take their outcome from the solutions. -/
  evaluate : ∀ f, Eval.Solves setting f → ∀ patience t s,
    setting.evaluate patience t s =
      Eval.outcome (do
        let evaluated ← f t
        Eval.reporting (Reporting.normalize (← Eval.origin? t) evaluated))
        (setting.evaluator patience) s
  checkAssignable : ∀ f g, Eval.Solves setting f →
    Check.Solves ⟨f, .fresh setting.options 0 none⟩ setting.options.maxSubtypeDepth.toNat g →
    ∀ source target s, setting.checkAssignable source target s =
      let r := Check.explained (g source target) source target (.fresh setting.options) s
      (⟨r.1.1, r.1.2.diagnostics⟩, r.2)
  /-- No chain of calls goes on for ever. -/
  evaluationCalls : ∀ t patience s,
    Acc (fun q' q => Eval.Calls setting q q') ⟨t, setting.evaluator patience, s⟩
  checkCalls : ∀ nested source target s,
    Acc (fun q' q => Check.Calls nested q q') ⟨source, target, .fresh setting.options, s⟩
  /-- Evaluators stay within the limit, or at their base. -/
  evaluatorDepth : ∀ t patience s q,
    Relation.ReflTransGen (Eval.Calls setting) ⟨t, setting.evaluator patience, s⟩ q →
      q.evaluator.guard.depth ≤
        max setting.options.maxEvaluationDepth.toNat q.evaluator.guard.baseDepth ∧
      (q.evaluator.guard.enter q.type).2.depth ≤
        max setting.options.maxEvaluationDepth.toNat q.evaluator.guard.baseDepth
  /-- Checkers stay within the limit. -/
  checkerDepth : ∀ nested source target s q,
    Relation.ReflTransGen (Check.Calls nested) ⟨source, target, .fresh setting.options, s⟩ q →
      q.checker.guard.depth ≤ setting.options.maxSubtypeDepth.toNat ∧
      (q.checker.guard.enter (q.source, q.target)).2.depth ≤ setting.options.maxSubtypeDepth.toNat
  /-- A call is made at the next nesting. An evaluator that a check creates has that one as its base,
  above the base of the evaluator that asked for the check. -/
  created : ∀ t patience s q q',
    Relation.ReflTransGen (Eval.Calls setting) ⟨t, setting.evaluator patience, s⟩ q →
    Eval.Calls setting q q' → q'.evaluator.guard.depth = q.evaluator.guard.depth + 1 ∧
      (q'.evaluator.guard.baseDepth = q.evaluator.guard.baseDepth ∨
        q.evaluator.guard.baseDepth < q'.evaluator.guard.baseDepth ∧
          q'.evaluator = .fresh setting.options (q.evaluator.guard.depth + 1) none)
  walks : ∀ s : Store, s.Formed → s.WalksEnd

theorem Setting.terminates (setting : Setting) : setting.Terminates where
  evaluation _ := Eval.solves_iff
  checks _ _ := Check.solves_iff
  evaluate _ hf := evaluate_of_solves hf
  checkAssignable _ _ hf hg := checkAssignable_of_solves hf hg
  evaluationCalls _ _ _ := Eval.Calls.acc (Eval.within_fresh _ _)
  checkCalls _ _ _ _ := Check.Calls.acc Check.within_fresh
  evaluatorDepth t patience s q h := by
    obtain ⟨hq, hdepth⟩ := Eval.Calls.within (Eval.within_fresh _ _) (Nat.zero_le _) h
    exact ⟨hdepth, hq.depth_enter_le hdepth q.type⟩
  checkerDepth nested source target s q h := by
    obtain ⟨hq, hdepth⟩ := Check.Calls.within Check.within_fresh (Nat.zero_le _) h
    have henter := hq.depth_enter_le (by omega) (q.source, q.target)
    have hbase := hq.base
    exact ⟨hdepth, by omega⟩
  created t patience s q q' h hcall := by
    obtain ⟨hq, _⟩ := Eval.Calls.within (Eval.within_fresh _ _) (Nat.zero_le _) h
    obtain ⟨_, _, hnext, hcreated⟩ := hcall.deeper hq
    refine ⟨hnext, hcreated.imp_right fun hfresh => ⟨?_, hfresh⟩⟩
    have hbase : q'.evaluator.guard.baseDepth = q.evaluator.guard.depth + 1 := by
      rw [hfresh]
      rfl
    have hle := hq.base
    omega
  walks _ hs := hs.walksEnd

end TypeResolution
