import TypeResolution.Proofs.Evaluation.Kept
import TypeResolution.Proofs.Limits.Termination

/-!
What an evaluation leaves as it was. On every way out, also when the request is cancelled, an
evaluator is at the types, expansions and nesting at which it was before. An evaluation that is
cancelled is not remembered, neither for its own type nor for those that wait for it.
-/

namespace TypeResolution

/-- A guard changes its active keys and its nesting only for a key that it lets in. -/
theorem Recursion.Guard.enter_cases {κ : Type} [DecidableEq κ] (g : Guard κ) (key : κ) :
    ((g.enter key).1 = .entered ∧ key ∉ g.active ∧ (g.enter key).2.active = key :: g.active ∧
      (g.enter key).2.depth = g.depth + 1 ∧ (g.enter key).2.baseDepth = g.baseDepth ∧
      (g.enter key).2.exceeded = g.exceeded) ∨
    ((g.enter key).1 ≠ .entered ∧ (g.enter key).2.active = g.active ∧
      (g.enter key).2.depth = g.depth ∧ (g.enter key).2.baseDepth = g.baseDepth ∧
      (g.exceeded → (g.enter key).2.exceeded)) := by
  unfold Guard.enter
  dsimp only [Guard.tick]
  split
  · exact .inr ⟨nofun, rfl, rfl, rfl, fun _ => rfl⟩
  split
  · exact .inr ⟨nofun, rfl, rfl, rfl, fun _ => rfl⟩
  split
  · exact .inr ⟨nofun, rfl, rfl, rfl, id⟩
  · rename_i hactive
    exact .inl ⟨rfl, hactive, rfl, rfl, rfl, rfl⟩

namespace Eval

variable {B : Breach} {setting : Setting}

section visits

variable {t : TypeId} {e e₁ : Evaluator}

/-- The evaluator `e₁` works on `t` and was `e` before. -/
structure Entered (t : TypeId) (e e₁ : Evaluator) : Prop where
  fresh : t ∉ e.guard.active
  unknown : e.cache[t]? = none
  active : e₁.guard.active = t :: e.guard.active
  depth : e₁.guard.depth = e.guard.depth + 1
  baseDepth : e₁.guard.baseDepth = e.guard.baseDepth
  frames : e₁.frames = e.frames
  productive : e₁.productive = e.productive
  patience : e.patience = none → e₁.patience = none
  cache : e₁.cache = e.cache
  exceeded : e₁.guard.exceeded = e.guard.exceeded

theorem Entered.base_le (h : Entered t e e₁) (hbase : e.guard.baseDepth ≤ e.guard.depth) :
    e₁.guard.baseDepth ≤ e₁.guard.depth := by
  rw [h.baseDepth, h.depth]
  exact Nat.le_succ_of_le hbase

/-- The run of an evaluation that does not work on its type. -/
structure Quiet (e : Evaluator) (r : End TypeId) : Prop where
  kept : e.Kept r.1.2
  calm : e.patience = none → r.1.1 ≠ .error .mk
  cache : r.1.2.cache = e.cache

theorem Reports.quiet {m : Eval TypeId} (h : Reports m) (e : Evaluator) (s : Store) :
    Quiet e (m.run e s) := by
  obtain ⟨a, cycles, reported, ds, hrun⟩ := h e s
  rw [hrun]
  exact ⟨{ Evaluator.Kept.refl e with grows := .of_eq rfl rfl }, fun _ => nofun, rfl⟩

theorem Quiet.of_kept {e₀ : Evaluator} {r : End TypeId} (h : Quiet e₀ r) (hkept : e.Kept e₀)
    (hcache : e₀.cache = e.cache) : Quiet e r where
  kept := hkept.trans h.kept
  calm hp := h.calm (hkept.patience hp)
  cache := h.cache.trans hcache

/-- How an evaluation of `t` runs, whatever works on types that are entered. -/
def Visits (t : TypeId) (e : Evaluator) (s : Store)
    (run : (TypeId → Node → Eval TypeId) → End TypeId) : Prop :=
  (∃ r, Quiet e r ∧ ∀ work, run work = r) ∨
    ∃ e₁, Entered t e e₁ ∧ ∀ work, run work = finish t ((work t (s.node t)).run e₁ s)

theorem Visits.of_kept {e₀ : Evaluator} {s : Store} {run : (TypeId → Node → Eval TypeId) → End TypeId}
    (h : Visits t e₀ s run) (hkept : e.Kept e₀) (hcache : e₀.cache = e.cache)
    (hexceeded : e₀.guard.exceeded = e.guard.exceeded) : Visits t e s run := by
  rcases h with ⟨r, hquiet, hrun⟩ | ⟨e₁, hentered, hrun⟩
  · exact .inl ⟨r, hquiet.of_kept hkept hcache, hrun⟩
  · refine .inr ⟨e₁, ?_, hrun⟩
    exact { hentered with
      fresh := hkept.active ▸ hentered.fresh
      active := by rw [hentered.active, hkept.active]
      depth := by rw [hentered.depth, hkept.depth]
      baseDepth := hentered.baseDepth.trans hkept.baseDepth
      frames := hentered.frames.trans hkept.frames
      productive := hentered.productive.trans hkept.productive
      unknown := hcache ▸ hentered.unknown
      patience := fun hp => hentered.patience (hkept.patience hp)
      cache := hentered.cache.trans hcache
      exceeded := hentered.exceeded.trans hexceeded }

theorem visits_enter (setting : Setting) (s : Store) (hunknown : e.cache[t]? = none) :
    Visits t e s fun work => (do
      match ← Eval.enter t with
      | .entered =>
          let n ← Build.node t
          let result ← leaving t (work t n)
          unless (← get).guard.exceeded do
            remember t result
          return result
      | .cycle => reenterCycle setting t
      | _ =>
          reportDepthExceeded t
          return t : Eval TypeId).run e s := by
  have henter : (Eval.enter t).run e s =
      ((.ok (e.guard.enter t).1, { e with guard := (e.guard.enter t).2 }), s) := rfl
  simp only [run_bind, henter]
  rcases Recursion.Guard.enter_cases e.guard t with
    ⟨hanswer, hfresh, hactive, hdepth, hbase, hexceeded⟩ |
      ⟨hanswer, hactive, hdepth, hbase, hexceeded⟩
  · rw [hanswer]
    exact .inr ⟨{ e with guard := (e.guard.enter t).2 },
      ⟨hfresh, hunknown, hactive, hdepth, hbase, rfl, rfl, id, rfl, hexceeded⟩,
      fun work => entered_run work t _ s⟩
  · have hkept : e.Kept { e with guard := (e.guard.enter t).2 } :=
      { Evaluator.Kept.refl e with
        active := hactive
        depth := hdepth
        baseDepth := hbase
        grows := ⟨fun _ _ h => h, hexceeded⟩ }
    have hquiet : ∀ {m : Eval TypeId}, Reports m →
        Quiet e (m.run { e with guard := (e.guard.enter t).2 } s) := fun hm =>
      (hm.quiet _ s).of_kept hkept rfl
    have hlimit : Reports (do reportDepthExceeded t; return t) :=
      reports_bind (reports_reportDepthExceeded t) fun _ => reports_pure t
    cases ha : (e.guard.enter t).1 with
    | entered => exact absurd ha hanswer
    | cycle => exact .inl ⟨_, hquiet (reports_reenterCycle t), fun _ => rfl⟩
    | depthExceeded => exact .inl ⟨_, hquiet hlimit, fun _ => rfl⟩
    | iterationExceeded => exact .inl ⟨_, hquiet hlimit, fun _ => rfl⟩

theorem visits_consult (setting : Setting) (t : TypeId) (e : Evaluator) (s : Store) :
    Visits t e s fun work => (do
      if let some known := (← get).cache[t]? then
        return known
      if (← get).guard.exceeded then
        return t
      match ← Eval.enter t with
      | .entered =>
          let n ← Build.node t
          let result ← leaving t (work t n)
          unless (← get).guard.exceeded do
            remember t result
          return result
      | .cycle => reenterCycle setting t
      | _ =>
          reportDepthExceeded t
          return t : Eval TypeId).run e s := by
  have hget : (get : Eval Evaluator).run e s = ((.ok e, e), s) := rfl
  cases hcache : e.cache[t]? with
  | some known =>
      simp only [run_bind, hget, hcache]
      exact .inl ⟨_, (reports_pure known).quiet e s, fun _ => rfl⟩
  | none =>
      by_cases hexceeded : e.guard.exceeded
      · simp only [run_bind, hget, hcache, if_pos hexceeded]
        exact .inl ⟨_, (reports_pure t).quiet e s, fun _ => rfl⟩
      · have henter := visits_enter setting s hcache
        simp only [run_bind, hget, hcache, if_neg hexceeded] at henter ⊢
        exact henter

theorem visits_guarded (setting : Setting) (t : TypeId) (e : Evaluator) (s : Store) :
    Visits t e s fun work => (guarded work setting t).run e s := by
  unfold guarded
  by_cases hfixed : t.isFixed
  · simp only [if_pos hfixed]
    exact .inl ⟨_, (reports_pure t).quiet e s, fun _ => rfl⟩
  simp only [if_neg hfixed, run_bind, poll_run]
  rcases hpatience : e.patience with _ | _ | n
  · exact visits_consult setting t e s
  · refine .inl ⟨_, ⟨.refl e, fun h => ?_, rfl⟩, fun _ => rfl⟩
    exact (Option.some_ne_none _ (hpatience.symm.trans h)).elim
  · refine (visits_consult setting t { e with patience := some n } s).of_kept
      { Evaluator.Kept.refl e with patience := fun h => ?_, grows := .of_eq rfl rfl } rfl rfl
    exact (Option.some_ne_none _ (hpatience.symm.trans h)).elim

/-- The result of the type that is left is the only one that is new. -/
theorem Entered.finish_cache (h : Entered t e e₁) {r : End TypeId} (hkept : e₁.Kept r.1.2)
    {u : TypeId} (hu : u ∈ e.guard.active) : (finish t r).1.2.cache[u]? = e.cache[u]? := by
  have hne : ¬t = u := fun heq => h.fresh (heq ▸ hu)
  have hcache := hkept.cache u (by rw [h.active]; exact List.mem_cons_of_mem t hu)
  rw [h.cache] at hcache
  rcases r with ⟨⟨_ | result, e₂⟩, s₂⟩
  · exact hcache
  · change (if e₂.guard.exceeded then e₂.cache else e₂.cache.insert t result)[u]? = _
    split
    · exact hcache
    · rw [Std.HashMap.getElem?_insert, if_neg (by simpa using hne)]
      exact hcache

/-- A type that was worked on has no result yet, which its own would take the place of. -/
theorem Entered.finish_grows (h : Entered t e e₁) {r : End TypeId} (hkept : e₁.Kept r.1.2) :
    r.1.2.Grows (finish t r).1.2 where
  remembered u v hv := by
    have hunknown := hkept.cache t (by rw [h.active]; exact List.mem_cons_self)
    rw [h.cache, h.unknown] at hunknown
    have hne : ¬t = u := by
      rintro rfl
      rw [hunknown] at hv
      cases hv
    rcases r with ⟨⟨_ | result, e₂⟩, s₂⟩
    · exact hv
    · change (if e₂.guard.exceeded then e₂.cache else e₂.cache.insert t result)[u]? = _
      split
      · exact hv
      · rw [Std.HashMap.getElem?_insert, if_neg (by simpa using hne)]
        exact hv
  exceeded hexceeded := by rwa [finish_exceeded]

theorem Entered.finish_kept (h : Entered t e e₁) (hbase : e.guard.baseDepth ≤ e.guard.depth)
    {r : End TypeId} (hkept : e₁.Kept r.1.2) : e.Kept (finish t r).1.2 := by
  have hactive : (r.1.2.guard.leave t).active = e.guard.active := by
    change r.1.2.guard.active.erase t = _
    rw [hkept.active, h.active, List.erase_cons_head]
  have hdepth : (r.1.2.guard.leave t).depth = e.guard.depth := by
    change max (r.1.2.guard.depth - 1) r.1.2.guard.baseDepth = _
    rw [hkept.depth, hkept.baseDepth, h.depth, h.baseDepth, Nat.add_sub_cancel]
    exact Nat.max_eq_left hbase
  have hcache : ∀ u ∈ e.guard.active, (finish t r).1.2.cache[u]? = e.cache[u]? :=
    fun u hu => h.finish_cache hkept hu
  have hframes := hkept.frames.trans h.frames
  have hproductive := hkept.productive.trans h.productive
  have hbaseDepth := hkept.baseDepth.trans h.baseDepth
  have hpatience := fun hp => hkept.patience (h.patience hp)
  have hgrows : e.Grows (finish t r).1.2 :=
    ((Evaluator.Grows.of_eq h.cache h.exceeded).trans hkept.grows).trans (h.finish_grows hkept)
  rcases r with ⟨⟨_ | result, e₂⟩, s₂⟩ <;>
    exact ⟨⟨hactive, hdepth, hframes, hproductive⟩, hbaseDepth, hpatience, hcache, hgrows⟩

/-- A breach on the work on a type is one on the evaluation of the type. -/
theorem Entered.finish_breach (h : Entered t e e₁) {r : End TypeId} (hkept : e₁.Kept r.1.2)
    (hbreach : B.at r) : B.at (finish t r) := by
  have hgrows := h.finish_grows hkept
  rcases r with ⟨⟨_ | result, e₂⟩, s₂⟩
  · exact B.cancelled hbreach rfl rfl
  · exact B.later hbreach hgrows

theorem restores_guarded {work work' : TypeId → Node → Eval TypeId}
    (h : ∀ n, Restores B (work t n) (work' t n)) :
    Restores B (guarded work setting t) (guarded work' setting t) := by
  intro e s hbase
  rcases visits_guarded setting t e s with ⟨r, hquiet, hrun⟩ | ⟨e₁, hentered, hrun⟩
  · dsimp only at hrun
    rw [hrun work, hrun work']
    exact ⟨hquiet.kept, hquiet.calm, .inl rfl⟩
  · dsimp only at hrun
    rw [hrun work, hrun work']
    obtain ⟨hkept, hcalm, hsame⟩ := h (s.node t) e₁ s (hentered.base_le hbase)
    refine ⟨hentered.finish_kept hbase hkept, fun hp => ?_, ?_⟩
    · have hcalm := hcalm (hentered.patience hp)
      rcases hr : (work t (s.node t)).run e₁ s with ⟨⟨_ | result, e₂⟩, s₂⟩
      · exact absurd (by rw [hr]) hcalm
      · exact nofun
    · exact hsame.imp (congrArg (finish t)) (hentered.finish_breach hkept)

/-- An evaluation that is cancelled gives its type no result. -/
theorem cache_of_cancelled {work : TypeId → Node → Eval TypeId}
    (h : ∀ n, Restores (.stopped {}) (work t n) (work t n)) {s : Store}
    (hbase : e.guard.baseDepth ≤ e.guard.depth)
    (herror : ((guarded work setting t).run e s).1.1 = .error .mk) :
    ((guarded work setting t).run e s).1.2.cache[t]? = e.cache[t]? := by
  rcases visits_guarded setting t e s with ⟨r, hquiet, hrun⟩ | ⟨e₁, hentered, hrun⟩
  · dsimp only at hrun
    rw [hrun work, hquiet.cache]
  · dsimp only at hrun
    rw [hrun work] at herror ⊢
    have hkept := (h (s.node t) e₁ s (hentered.base_le hbase)).kept
    have hcache := hkept.cache t (by rw [hentered.active]; exact List.mem_cons_self)
    rw [hentered.cache] at hcache
    rcases hr : (work t (s.node t)).run e₁ s with ⟨⟨_ | result, e₂⟩, s₂⟩
    · rw [hr] at hcache
      exact hcache
    · rw [hr] at herror
      cases herror

end visits

theorem restores_evaluateAt (depth : Nat) (t : TypeId) :
    Restores B (evaluateAt setting depth t) (evaluateAt setting depth t) := by
  induction depth generalizing t with
  | zero => exact restores_guarded fun _ => restores_pure t
  | succ depth ih => exact restores_guarded (restores_node ih (fun _ _ _ => rfl) t)

theorem restores_evaluate (t : TypeId) :
    Restores B (evaluate setting t) (evaluate setting t) :=
  fun e s hbase => restores_evaluateAt (e.guard.maxDepth - e.guard.depth) t e s hbase

theorem evaluate_cache_of_cancelled {t : TypeId} {e : Evaluator} {s : Store}
    (hbase : e.guard.baseDepth ≤ e.guard.depth)
    (herror : ((evaluate setting t).run e s).1.1 = .error .mk) :
    ((evaluate setting t).run e s).1.2.cache[t]? = e.cache[t]? := by
  have hat : (evaluate setting t).run e s =
      (evaluateAt setting (e.guard.maxDepth - e.guard.depth) t).run e s := rfl
  rw [hat] at herror ⊢
  cases hdepth : e.guard.maxDepth - e.guard.depth with
  | zero =>
      rw [hdepth] at herror
      exact cache_of_cancelled (fun _ => restores_pure t) hbase herror
  | succ depth =>
      rw [hdepth] at herror
      exact cache_of_cancelled
        (restores_node (restores_evaluateAt depth) (fun _ _ _ => rfl) t) hbase herror

/-- How a call ends. -/
def Call.run (setting : Setting) (q : Call) : End TypeId :=
  (evaluate setting q.type).run q.evaluator q.store

/-- A cancelled call stops the call that made it. -/
theorem Calls.stopped {q q' : Call} (h : Calls setting q q')
    (hq : q.evaluator.guard.Within setting.options.maxEvaluationDepth.toNat)
    (herror : (q'.run setting).1.1 = .error .mk) :
    (Breach.stopped (q'.run setting).1.2.cache).at (q.run setting) := by
  obtain ⟨f, hf, hne⟩ := h
  let inner' : TypeId → Eval TypeId := fun t e s => f ⟨t, e, s⟩
  have hself : ∀ t, Restores (.stopped {}) (evaluate setting t) (evaluate setting t) := restores_evaluate
  have hinner : ∀ t, Restores (.stopped (q'.run setting).1.2.cache) (evaluate setting t)
      (inner' t) := by
    intro t e s hbase
    obtain ⟨hkept, hcalm, _⟩ := hself t e s hbase
    by_cases heq : Call.mk t e s = q'
    · subst heq
      exact ⟨hkept, hcalm, .inr (Breach.stopped_at.mpr ⟨herror, rfl⟩)⟩
    · exact ⟨hkept, hcalm, .inl (hf ⟨t, e, s⟩ heq)⟩
  -- Evaluators that checks create are never cancelled.
  have hfresh : ∀ o depth t, inner' t (.fresh o depth none) =
      evaluate setting t (.fresh o depth none) := by
    intro o depth t
    funext s
    refine hf ⟨t, .fresh o depth none, s⟩ fun heq => ?_
    have hcalm := (hself t (.fresh o depth none) s (Nat.le_refl depth)).calm rfl
    exact hcalm (by rw [← heq] at herror; exact herror)
  have hrun : (guarded (node (evaluate setting) setting) setting q.type).run q.evaluator q.store =
      q.run setting :=
    guarded_node_eq_evaluate hq (fun _ _ _ _ _ _ _ => rfl) (fun _ _ _ => rfl) _ _
  have hguarded : Restores (.stopped (q'.run setting).1.2.cache)
      (guarded (node (evaluate setting) setting) setting q.type)
      (guarded (node inner' setting) setting q.type) :=
    restores_guarded (restores_node hinner hfresh q.type)
  have hends := hguarded q.evaluator q.store hq.base
  rw [hrun] at hends
  rcases hends.same with heq | hstopped
  · exact absurd (heq.trans hrun.symm) hne
  · exact hstopped

theorem Calls.within_limit {root q : Call}
    (hroot : root.evaluator.guard.Within setting.options.maxEvaluationDepth.toNat)
    (h : Relation.ReflTransGen (Calls setting) root q) :
    q.evaluator.guard.Within setting.options.maxEvaluationDepth.toNat := by
  induction h with
  | refl => exact hroot
  | tail _ hcall ih => exact (hcall.deeper ih).2.1

/-- A cancelled call stops all calls that wait for it, and nothing is remembered in between. -/
theorem Calls.stopped_of_reaches {root q : Call}
    (hroot : root.evaluator.guard.Within setting.options.maxEvaluationDepth.toNat)
    (h : Relation.ReflTransGen (Calls setting) root q)
    (herror : (q.run setting).1.1 = .error .mk) :
    (root.run setting).1.1 = .error .mk ∧
      (root.run setting).1.2.cache = (q.run setting).1.2.cache := by
  induction h using Relation.ReflTransGen.head_induction_on with
  | refl => exact ⟨herror, rfl⟩
  | head hcall _ ih =>
      obtain ⟨_, hnext, _⟩ := hcall.deeper hroot
      obtain ⟨hstopped, hcache⟩ := ih hnext
      obtain ⟨hstopped', hcache'⟩ := Breach.stopped_at.mp (hcall.stopped hroot hstopped)
      exact ⟨hstopped', hcache'.trans hcache⟩

open Classical in
/-- An array calls for its elements, one level deeper. -/
theorem calls_element {t element : TypeId} {e e₀ : Evaluator} {s : Store}
    (hfixed : t.isFixed = false) (hnode : s.node t = .array element)
    (hpoll : poll.run e s = ((.ok (), e₀), s)) (hcache : e₀.cache[t]? = none)
    (hexceeded : e₀.guard.exceeded = false) (henter : (e₀.guard.enter t).1 = .entered) :
    Calls setting ⟨t, e, s⟩ ⟨element, { e₀ with
      guard := (e₀.guard.enter t).2
      productive := e₀.productive + 1 }, s⟩ := by
  generalize hq : Call.mk element { e₀ with
    guard := (e₀.guard.enter t).2
    productive := e₀.productive + 1 } s = q
  have hvalue : ∀ f : Call → End TypeId,
      (guarded (node (fun t e s => f ⟨t, e, s⟩) setting) setting t e s).1.1.isOk =
        (f q).1.1.isOk := by
    intro f
    refine (congrArg (·.1.1.isOk) (guarded_run_entered hfixed hpoll hcache hexceeded henter)).trans ?_
    rw [isOk_finish, hnode]
    change ((productively fun e s => f ⟨element, e, s⟩) >>= _ : Eval TypeId).run _ _ |>.1.1.isOk = _
    have hproductively : (productively fun e s => f ⟨element, e, s⟩).run
        { e₀ with guard := (e₀.guard.enter t).2 } s =
        (((f q).1.1, { (f q).1.2 with productive := (f q).1.2.productive - 1 }), (f q).2) := by
      rw [← hq]
      rfl
    rw [run_bind, hproductively]
    rcases f q with ⟨⟨_ | _, _⟩, _⟩ <;> rfl
  obtain ⟨other, hother⟩ : ∃ other : Except Cancelled TypeId, other.isOk ≠
      (evaluate setting q.type q.evaluator q.store).1.1.isOk := by
    cases (evaluate setting q.type q.evaluator q.store).1.1 with
    | ok _ => exact ⟨.error .mk, nofun⟩
    | error _ => exact ⟨.ok t, nofun⟩
  refine ⟨Function.update (fun q => evaluate setting q.type q.evaluator q.store) q
    ((other, e), s), fun k hk => Function.update_of_ne hk _ _, fun heq => hother ?_⟩
  have hsame := (hvalue _).symm.trans ((congrArg (·.1.1.isOk) heq).trans
    (hvalue fun q => evaluate setting q.type q.evaluator q.store))
  rwa [Function.update_self] at hsame

/-- On every way out of an evaluation, the evaluator is where it was, and the types whose own
evaluation was cancelled have the results that they had before. -/
theorem evaluate_restores {e : Evaluator}
    (he : e.guard.Within setting.options.maxEvaluationDepth.toNat) (t : TypeId) (s : Store) :
    e.Restored ((evaluate setting t).run e s).1.2 ∧
    ∀ q, Relation.ReflTransGen (Calls setting) ⟨t, e, s⟩ q →
      ((evaluate setting q.type).run q.evaluator q.store).1.1 = .error .mk →
        ((evaluate setting t).run e s).1.1 = .error .mk ∧
        ((evaluate setting t).run e s).1.2.cache[q.type]? = q.evaluator.cache[q.type]? := by
  have hself : Restores (.stopped {}) (evaluate setting t) (evaluate setting t) := restores_evaluate t
  refine ⟨(hself e s he.base).kept.toRestored, fun q hq herror => ?_⟩
  obtain ⟨hstopped, hcache⟩ := Calls.stopped_of_reaches he hq herror
  refine ⟨hstopped, ?_⟩
  rw [← evaluate_cache_of_cancelled (Calls.within_limit he hq).base herror]
  exact congrArg (·[q.type]?) hcache

/-- An array of arrays whose evaluation is cancelled at the inner one. -/
theorem evaluate_restores_nested :
    let setting : Setting := ⟨.empty, .standard⟩
    let s := (Store.empty.push (.array .string)).push (.array ⟨12⟩)
    let e : Evaluator := .fresh .standard 0 (some 1)
    ∃ q, q.type = ⟨12⟩ ∧ Relation.ReflTransGen (Calls setting) ⟨⟨13⟩, e, s⟩ q ∧
      ((evaluate setting q.type).run q.evaluator q.store).1.1 = .error .mk ∧
      e.Restored ((evaluate setting ⟨13⟩).run e s).1.2 ∧
      ((evaluate setting ⟨13⟩).run e s).1.1 = .error .mk ∧
      ((evaluate setting ⟨13⟩).run e s).1.2.cache[q.type]? = q.evaluator.cache[q.type]? := by
  intro setting s e
  have hpoll : poll.run e s = ((.ok (), { e with patience := some 0 }), s) := rfl
  have hcall : Calls setting ⟨⟨13⟩, e, s⟩ ⟨⟨12⟩, { e with
      patience := some 0
      guard := (e.guard.enter ⟨13⟩).2
      productive := 1 }, s⟩ :=
    calls_element rfl rfl hpoll Std.HashMap.getElem?_empty rfl rfl
  have hreach := Relation.ReflTransGen.single hcall
  have he : e.guard.Within setting.options.maxEvaluationDepth.toNat := within_fresh 0 (some 1)
  obtain ⟨hrestored, hcancelled⟩ := evaluate_restores he ⟨13⟩ s
  exact ⟨_, rfl, hreach, rfl, hrestored, hcancelled _ hreach rfl⟩

end Eval

end TypeResolution
