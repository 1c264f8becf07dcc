import TypeResolution.Proofs.Evaluated.Results

/-!
Without aliases, an evaluation that hits no limit meets no type again while it is under evaluation:
whatever is evaluated on the way ranks below what is under evaluation.
-/

namespace TypeResolution

open Store Replay Eval

namespace Eval

/-- The run has lost the way to the ending `E`. -/
def Breach.astray (E : Evaluator) : Breach where
  holds _ e := ¬e.Grows E
  later h hgrows he := h (hgrows.trans he)
  cancelled h hcache hexceeded he := h ((Evaluator.Grows.of_eq hcache hexceeded).trans he)

open Classical in
/-- A part of an evaluation that is given up if it loses the way to the ending `E`. -/
noncomputable def upTo (E : Evaluator) (m : Eval TypeId) : Eval TypeId := fun e s =>
  if e.guard.active = [] ∨ (m e s).1.2.Grows E then m e s else ((.error .mk, (m e s).1.2), (m e s).2)

variable {E : Evaluator} {m : Eval TypeId}

theorem restores_upTo (h : Restores (.astray E) m m) : Restores (.astray E) m (upTo E m) := by
  intro e s hbase
  obtain ⟨hkept, hcalm, -⟩ := h e s hbase
  refine ⟨hkept, hcalm, ?_⟩
  by_cases hway : e.guard.active = [] ∨ (m e s).1.2.Grows E
  · exact .inl (if_pos hway)
  · exact .inr fun hgrows => hway (.inr hgrows)

theorem upTo_fresh (o : Options) (depth : Nat) (patience : Option Nat) :
    upTo E m (.fresh o depth patience) = m (.fresh o depth patience) :=
  funext fun _ => if_pos (.inl rfl)

theorem isAssignable_upTo (inner : TypeId → Eval TypeId) (o : Options) (depth : Nat) :
    Check.isAssignable ⟨fun t => upTo E (inner t), .fresh o depth none⟩ =
      Check.isAssignable ⟨inner, .fresh o depth none⟩ :=
  isAssignable_congr fun t => upTo_fresh (E := E) (m := inner t) o depth none

theorem Restores.kept {B : Breach} {α : Type} {m : Eval α} (h : Restores B m m) {e e' : Evaluator}
    {s s' : Store} {r : Except Cancelled α} (hbase : e.guard.baseDepth ≤ e.guard.depth)
    (hrun : m e s = ((r, e'), s')) : e.Kept e' := by
  have hkept := (h e s hbase).kept
  have hrun : m.run e s = ((r, e'), s') := hrun
  rwa [hrun] at hkept

theorem Restores.done {B : Breach} {α : Type} {m : Eval α} (h : Restores B m m) {e : Evaluator}
    {s : Store} (hbase : e.guard.baseDepth ≤ e.guard.depth) (hpatience : e.patience = none) :
    ∃ a e' s', m e s = ((.ok a, e'), s') := by
  have hcalm := (h e s hbase).calm hpatience
  rcases hx : m e s with ⟨⟨x, e'⟩, s'⟩
  cases x with
  | error => exact absurd (congrArg (·.1.1) hx) hcalm
  | ok a => exact ⟨a, e', s', rfl⟩

theorem grows_of_upTo {e e' : Evaluator} {s s' : Store} {r : TypeId} (hactive : e.guard.active ≠ [])
    (hrun : upTo E m e s = ((.ok r, e'), s')) : m e s = ((.ok r, e'), s') ∧ e'.Grows E := by
  unfold upTo at hrun
  split at hrun
  · rename_i hway
    refine ⟨hrun, ?_⟩
    rw [hrun] at hway
    exact hway.resolve_left hactive
  · cases hrun

end Eval

/-- An evaluation has hit no limit: neither the ones of the evaluation itself nor, where a
conditional was evaluated that was not split, the one of the walk through the type that it checks. -/
structure Evaluator.WithinLimits (s : Store) (e : Evaluator) : Prop where
  silent : ∀ d ∈ e.diagnostics, d.kind ≠ .evaluationDepthExceeded
  walks : ∀ t r, e.cache[t]? = some r → ∀ c, s.node t = .conditional c →
    ∀ u, e.cache[c.check]? = some u → (c.distributive → s.unionMembers? u = none) → s.Searched u

namespace Context

variable {R : Ending} {active : List TypeId} {s s' : Store} {t r u : TypeId} {k : ℕ} {N : ℕ ×ₗ ℕ}
  {e e' : Evaluator} {inner : TypeId → Eval TypeId}

/-- An evaluation that has hit no limit, and has missed no parameter in what a conditional checks. -/
structure Ending.Unlimited (R : Ending) : Prop where
  exceeded : R.evaluator.guard.exceeded = false
  known : ∀ t r, R.evaluator.cache[t]? = some r → R.store.Closed AnyName t ∧ R.store.Closed AnyName r
  walks : ∀ t r, R.evaluator.cache[t]? = some r → ∀ c, R.store.node t = .conditional c →
    ∀ u, R.evaluator.cache[c.check]? = some u →
      (c.distributive → R.store.unionMembers? u = none) → R.store.Searched u

/-- What the evaluation of `t` gives. -/
structure Arrives (R : Ending) (active : List TypeId) (s : Store) (t r : TypeId) (e' : Evaluator)
    (s' : Store) : Prop where
  grows : s.Extends s'
  formed : s'.Formed
  tidy : s'.Tidy
  progress : Progress R active s' e'
  result : EvaluatesTo s' t r
  remembered : t.isFixed ∨ R.evaluator.cache[t]? = some r

/-- From a store on, the types of rank below `N` are evaluated on the way to the ending. -/
def Leads (R : Ending) (active : List TypeId) (N : ℕ ×ₗ ℕ) (s : Store)
    (inner : TypeId → Eval TypeId) : Prop :=
  ∀ s₁, s.Extends s₁ → s₁.Formed → s₁.Tidy → ∀ t, s₁.Closed AnyName t → s₁.rank t < N →
    ∀ e, Progress R active s₁ e → ∀ r e' s', inner t e s₁ = ((.ok r, e'), s') →
      e'.Grows R.evaluator → Arrives R active s₁ t r e' s'

namespace Progress

theorem faithful (h : Progress R active s e) : e.Faithful s := fun t r ht hr =>
  (h.remembered t r hr).same ht

theorem base_le (h : Progress R active s e) : e.guard.baseDepth ≤ e.guard.depth :=
  h.base ▸ Nat.zero_le _

theorem enter (h : Progress R active s e) (t : TypeId) : Progress R (t :: active) s { e with
    guard := { e.guard.tick with active := t :: e.guard.active, depth := e.guard.depth + 1 } } where
  store := h.store
  active_eq := congrArg _ h.active_eq
  depth := congrArg (· + 1) h.depth
  base := h.base
  maxDepth := h.maxDepth
  finished := by
    have hsteps : e.guard.tick.iterations ≤ e.guard.iterations + 1 := min_le_left _ _
    have hfinished := h.finished
    rw [List.length_cons]
    change e.guard.tick.iterations ≤ e.cache.size + _
    omega
  remembered := h.remembered

theorem leave (h : Progress R (t :: active) s e) (hunknown : e.cache[t]? = none)
    (hr : EvaluatesTo s t r) : Progress R active s
      { e with guard := e.guard.leave t, cache := e.cache.insert t r } where
  store := h.store
  active_eq := by
    change e.guard.active.erase t = active
    rw [h.active_eq, List.erase_cons_head]
  depth := by
    have hdepth := h.depth
    rw [List.length_cons] at hdepth
    change max (e.guard.depth - 1) e.guard.baseDepth = _
    rw [h.base]
    omega
  base := h.base
  maxDepth := h.maxDepth
  finished := by
    have hfinished := h.finished
    rw [List.length_cons] at hfinished
    change e.guard.iterations ≤ (e.cache.insert t r).size + active.length
    rw [Std.HashMap.size_insert, if_neg (by simpa using hunknown)]
    omega
  remembered u v hv := by
    rw [Std.HashMap.getElem?_insert] at hv
    by_cases htu : t = u
    · rw [if_pos (by simpa using htu)] at hv
      cases hv
      exact htu ▸ hr
    · rw [if_neg (by simpa using htu)] at hv
      exact h.remembered u v hv

end Progress

section work

variable {depth : ℕ} (hlead : Leads R active N s (evaluateAt ⟨.empty, R.options⟩ depth))

include hlead

theorem evaluating_upTo (hactive : active ≠ []) (hroom : toLex (3 * (k + 1), 0) ≤ N) :
    Evaluating R active k N s
      fun t => upTo R.evaluator (evaluateAt ⟨.empty, R.options⟩ depth t) where
  room := hroom
  result {s₁ t} h₁ ht hrank hs htidy e he r e' s' hrun := by
    obtain ⟨hrun, hgrows⟩ := grows_of_upTo (he.active_eq ▸ hactive) hrun
    have h := hlead s₁ h₁ hs htidy t ht hrank e he r e' s' hrun hgrows
    exact ⟨h.grows, h.formed, h.tidy, h.progress, h.result, h.remembered⟩
  decides {s₁ source target} base h₁ hsource htarget := by
    rw [isAssignable_upTo]
    have hresolves : Resolves anyLink s₁
        ⟨evaluateAt ⟨.empty, R.options⟩ depth, .fresh R.options base none⟩
        ⟨evaluateAt ⟨.empty, R.options⟩ depth, .fresh R.options base none⟩ := fun s₂ h₂ t ht =>
      evaluates_evaluateAt_empty depth s₂ (.refl s₂) t ht _ _ (same_fresh base s₂)
    have hstart : Same anyLink s₁ (Checker.fresh R.options) (Checker.fresh R.options) :=
      .fresh R.options
    intro hs₁
    have hfollows := follows_run (follows_checkIsAssignable hresolves hsource htarget) hstart hs₁
    exact ⟨hfollows.grows, hfollows.formed, trivial⟩
  tidy {source target} base := by
    rw [isAssignable_upTo]
    exact Tidy.keeps_isAssignable (fun t => Tidy.keeps_evaluateAt _ depth t) source target _

/-- There is nothing to do at a finished node. -/
theorem progress_of_finished (hs : s.Formed) (htidy : s.Tidy) (ht : Finished s t) (hN : N = s.rank t)
    (he : Progress R active s e)
    (hrun : node (evaluateAt ⟨.empty, R.options⟩ depth) ⟨.empty, R.options⟩ t (s.node t) e s =
      ((.ok r, e'), s')) (hgrows : e'.Grows R.evaluator) :
    r = t ∧ s' = s ∧ Progress R active s e' := by
  let P : Evaluator → Prop := fun e => e.Faithful s ∧ e.guard.baseDepth ≤ e.guard.depth ∧
    (e.Grows R.evaluator → Progress R active s e)
  have hinner : ∀ c ∈ (s.node t).evaluatedParts,
      Finds P s (evaluateAt ⟨.empty, R.options⟩ depth c) c := by
    rintro c hc e ⟨hfaithful, hbase, hprogress⟩ b e' s' hrun
    have hc' := ht.part hc
    obtain ⟨rfl, rfl, hfaithful', hpasses⟩ :=
      hc'.evaluated.finds_evaluateAt hs depth e hfaithful b e' s' hrun
    have hkept := (restores_evaluateAt (B := .astray R.evaluator) depth b).kept hbase hrun
    refine ⟨rfl, rfl, ⟨hfaithful', hkept.base_le hbase, fun hgrows => ?_⟩, hpasses⟩
    exact (hlead s' (.refl _) hs htidy b hc'.closed (hN ▸ rank_part_lt hs ht hc) e
      (hprogress (hkept.grows.trans hgrows)) _ _ _ hrun hgrows).progress
  have hproductive : ∀ e n, P e → P { e with productive := n } := by
    rintro e n ⟨hfaithful, hbase, hprogress⟩
    refine ⟨hfaithful, hbase, fun hgrows => ?_⟩
    exact (hprogress ⟨hgrows.remembered, hgrows.exceeded⟩).of_eq rfl rfl
  have hfinds : Finds P s (node _ ⟨.empty, R.options⟩ t (s.node t)) t :=
    finds_at_node hproductive hs ht.evaluated hinner
  obtain ⟨rfl, rfl, ⟨-, -, hprogress⟩, -⟩ :=
    hfinds e ⟨he.faithful, he.base_le, fun _ => he⟩ r e' s' hrun
  exact ⟨rfl, rfl, hprogress hgrows⟩

/-- Where there is work left, the parts have less of it. -/
theorem progress_of_work (hR : R.Unlimited) (hs : s.Formed) (htidy : s.Tidy)
    (ht : s.Closed AnyName t) (hfinished : ¬Finished s t) (hactive : active ≠ []) (hN : N = s.rank t)
    (hremembered : ∃ r, R.evaluator.cache[t]? = some r) (he : Progress R active s e)
    (hrun : node (evaluateAt ⟨.empty, R.options⟩ depth) ⟨.empty, R.options⟩ t (s.node t) e s =
      ((.ok r, e'), s')) (hgrows : e'.Grows R.evaluator) :
    s.Extends s' ∧ s'.Formed ∧ s'.Tidy ∧ Progress R active s' e' ∧ Resolved (s.depth t) s' r := by
  obtain ⟨k, hdepth, hd⟩ := exists_descends hs ht hfinished
  have hwithin := within_depth hs ht
  rw [hdepth] at hwithin ⊢
  have hi := evaluating_upTo hlead hactive (hN ▸ hd.room)
  obtain ⟨result, hresult⟩ := hremembered
  obtain ⟨ht', -⟩ := hR.known t result hresult
  have hnode : s.node t = R.store.node t := ht'.node_eq he.store
  have hsearched : ∀ c, s.node t = .conditional c → ∀ u, R.evaluator.cache[c.check]? = some u →
      ∀ s₁, s.Extends s₁ → (c.distributive → s₁.unionMembers? u = none) → s₁.Searched u := by
    intro c hn u hu s₁ h₁ hplain
    have hu' := (hR.known c.check u hu).2
    have hext := he.store.trans h₁
    rw [unionMembers?, hu'.node_eq hext] at hplain
    exact (hR.walks t result hresult c (hnode ▸ hn) u hu hplain).mono hext hu'
  have htracked := tracked_at_node hi hwithin (hN ▸ hd) hsearched
  refine htracked hs htidy e he r e' s' ?_
  -- a part that loses the way may as well be given up, since this run reaches the ending
  have hends : Eval.Ends (.astray R.evaluator) e
      ((node (evaluateAt ⟨.empty, R.options⟩ depth) ⟨.empty, R.options⟩ t (s.node t)).run e s) _ :=
    restores_node (fun u => restores_upTo (restores_evaluateAt depth u))
      (fun o base u => upTo_fresh o base none) t (s.node t) e s he.base_le
  have hrun : (node (evaluateAt ⟨.empty, R.options⟩ depth) ⟨.empty, R.options⟩ t (s.node t)).run e s =
    ((.ok r, e'), s') := hrun
  rcases hends.same with hsame | hastray
  · rw [hrun] at hsame
    exact hsame
  · rw [hrun] at hastray
    exact absurd hgrows hastray

end work

theorem arrives_finish {depth : ℕ} (hR : R.Unlimited) (hs : s.Formed) (htidy : s.Tidy)
    (ht : s.Closed AnyName t) (hunknown : e.cache[t]? = none) (hfresh : t ∉ e.guard.active)
    (he : Progress R active s e)
    (hlead : Leads R (t :: active) (s.rank t) s (evaluateAt ⟨.empty, R.options⟩ depth))
    (hsame : Evaluated s t → r = t)
    (hrun : finish t (node (evaluateAt ⟨.empty, R.options⟩ depth) ⟨.empty, R.options⟩ t (s.node t)
      { e with guard := { e.guard.tick with
          active := t :: e.guard.active, depth := e.guard.depth + 1 } } s) = ((.ok r, e'), s'))
    (hgrows : e'.Grows R.evaluator) : Arrives R active s t r e' s' := by
  have he₀ := he.enter t
  set e₀ : Evaluator := { e with guard := { e.guard.tick with
    active := t :: e.guard.active, depth := e.guard.depth + 1 } }
  have hentered : Entered t e e₀ := ⟨hfresh, hunknown, rfl, rfl, rfl, rfl, rfl, id, rfl, rfl⟩
  have hrestores : Restores (.astray R.evaluator)
      (node (evaluateAt ⟨.empty, R.options⟩ depth) ⟨.empty, R.options⟩ t (s.node t)) _ :=
    restores_node (restores_evaluateAt depth) (fun _ _ _ => rfl) t (s.node t)
  rcases hx : node (evaluateAt ⟨.empty, R.options⟩ depth) ⟨.empty, R.options⟩ t (s.node t) e₀ s with
    ⟨⟨x, e₁⟩, s₁⟩
  have hkept : e₀.Kept e₁ := hrestores.kept he₀.base_le hx
  rw [hx] at hrun
  cases x with
  | error => cases hrun
  | ok v =>
      have hway : e₁.Grows R.evaluator := by
        have h := hentered.finish_grows (r := ((.ok v, e₁), s₁)) hkept
        rw [hrun] at h
        exact h.trans hgrows
      have hexceeded : e₁.guard.exceeded = false := by
        by_contra h
        simpa [hR.exceeded] using hway.exceeded (by simpa using h)
      have hunknown₁ : e₁.cache[t]? = none :=
        (hkept.cache t (by rw [he₀.active_eq]; exact List.mem_cons_self)).trans hunknown
      have hfinish : finish t ((.ok v, e₁), s₁) = ((.ok v, { e₁ with
          guard := e₁.guard.leave t, cache := e₁.cache.insert t v }), s₁) := by
        simp [finish, hexceeded]
      rw [hfinish] at hrun
      cases hrun
      have hremembered : R.evaluator.cache[t]? = some r :=
        hgrows.remembered t r (by simp)
      by_cases hfinished : Finished s t
      · obtain ⟨rfl, rfl, hprogress⟩ :=
          progress_of_finished hlead hs htidy hfinished rfl he₀ hx hway
        have hresult := EvaluatesTo.self hfinished.evaluated
        exact ⟨.refl _, hs, htidy, hprogress.leave hunknown₁ hresult, hresult, .inr hremembered⟩
      · obtain ⟨hext, hs', htidy', hprogress, hresolved⟩ := progress_of_work hlead hR hs htidy ht
          hfinished (List.cons_ne_nil _ _) rfl ⟨r, hremembered⟩ he₀ hx hway
        have hresult : EvaluatesTo s' t r :=
          { closed := hext.closed ht
            evaluated := hresolved.evaluated
            within := fun n hn => hresolved.within.of_le (hn.back hext ht).depth_le
            same := fun h => hsame (h.back hext ht) }
        exact ⟨hext, hs', htidy', hprogress.leave hunknown₁ hresult, hresult, .inr hremembered⟩

/-- No type is met again that is under evaluation, as those rank above. -/
theorem arrives_guarded {work : TypeId → Node → Eval TypeId} (hR : R.Unlimited) (hs : s.Formed)
    (htidy : s.Tidy) (habove : ∀ a ∈ active, s.rank t < s.rank a)
    (he : Progress R active s e) (hrun : guarded work ⟨.empty, R.options⟩ t e s = ((.ok r, e'), s'))
    (hgrows : e'.Grows R.evaluator)
    (hwork : active.length < R.options.maxEvaluationDepth.toNat → ∀ e, Progress R active s e →
      e.cache[t]? = none → t ∉ e.guard.active → finish t (work t (s.node t) { e with
        guard := { e.guard.tick with
          active := t :: e.guard.active, depth := e.guard.depth + 1 } } s) = ((.ok r, e'), s') →
      Arrives R active s t r e' s') :
    Arrives R active s t r e' s' := by
  cases hfixed : t.isFixed with
  | true =>
      cases (guarded_fixed hfixed e s).symm.trans hrun
      exact ⟨.refl s, hs, htidy, he, .self (.of_fixed hs hfixed), .inl hfixed⟩
  | false =>
      obtain ⟨p, hturn⟩ := turn_of_done hfixed hrun
      have he : Progress R active s { e with patience := p } := he.of_eq rfl rfl
      generalize hx : ((Except.ok r, e'), s') = x at hturn
      cases hturn with
      | known h =>
          cases hx
          exact ⟨.refl s, hs, htidy, he, he.remembered t r h, .inr (hgrows.remembered t r h)⟩
      | halted h =>
          cases hx
          simpa [hR.exceeded] using hgrows.exceeded h.exceeded
      | cycle hactive =>
          -- what is under evaluation ranks above the type
          rw [he.active_eq] at hactive
          exact absurd (habove t hactive) (lt_irrefl _)
      | entered hcache hactive hdepth =>
          rw [he.depth, he.maxDepth] at hdepth
          exact hwork hdepth _ he hcache hactive hx.symm

/-- However far an evaluation gets, the types that it evaluates rank below those it is at work on. -/
theorem leads_evaluateAt (hR : R.Unlimited) (depth : ℕ)
    (hroom : R.options.maxEvaluationDepth.toNat ≤ active.length + depth)
    (habove : ∀ a ∈ active, s.Closed AnyName a ∧ N ≤ s.rank a) :
    Leads R active N s (evaluateAt ⟨.empty, R.options⟩ depth) := by
  -- on the nestings that are left; the type that is entered bounds the rank of what comes next
  induction depth generalizing active s N with
  | zero =>
      intro s₁ h₁ hs htidy t ht hrank e he r e' s' hrun hgrows
      have habove₁ : ∀ a ∈ active, s₁.rank t < s₁.rank a := fun a ha => by
        rw [rank_eq h₁ (habove a ha).1]
        exact hrank.trans_le (habove a ha).2
      exact arrives_guarded hR hs htidy habove₁ he hrun hgrows fun hlt =>
        absurd hlt (Nat.not_lt_of_le hroom)
  | succ depth ih =>
      intro s₁ h₁ hs htidy t ht hrank e he r e' s' hrun hgrows
      have habove₁ : ∀ a ∈ active, s₁.rank t < s₁.rank a := fun a ha => by
        rw [rank_eq h₁ (habove a ha).1]
        exact hrank.trans_le (habove a ha).2
      have hlead : Leads R (t :: active) (s₁.rank t) s₁ (evaluateAt ⟨.empty, R.options⟩ depth) := by
        refine ih ?_ ?_
        · rw [List.length_cons]
          omega
        · simp only [List.forall_mem_cons]
          exact ⟨⟨ht, le_rfl⟩, fun a ha => ⟨h₁.closed (habove a ha).1, (habove₁ a ha).le⟩⟩
      have hsame : Evaluated s₁ t → r = t := fun h =>
        (h.finds_evaluateAt hs (depth + 1) e he.faithful r e' s' hrun).1
      exact arrives_guarded hR hs htidy habove₁ he hrun hgrows fun _ e₁ he₁ hcache hactive hfinish =>
        arrives_finish hR hs htidy ht hcache hactive he₁ hlead hsame hfinish hgrows

section replay

variable {o : Options} {patience : Option Nat} (hs : s.Formed) (ht : s.Closed AnyName t)
  (hrun : evaluate ⟨.empty, o⟩ t (.fresh o 0 patience) s = ((.ok r, e), s'))

include hs ht hrun

/-- The evaluation is done again in the store that it has left. -/
theorem evaluate_later : ∃ (e' : Evaluator) (s₁ : Store),
    evaluate ⟨.empty, o⟩ t (.fresh o 0 patience) s' = ((.ok r, e'), s₁) ∧ s'.Alike s₁ ∧
      e'.guard = e.guard ∧ ∀ u : TypeId, e'.cache[u]? = e.cache[u]? := by
  have hstart : Same anyLink s (Evaluator.fresh o 0 patience) (Evaluator.fresh o 0 patience) :=
    .fresh o 0 False.elim
  let m : Build (Except Cancelled TypeId × Evaluator) := evaluate ⟨.empty, o⟩ t (.fresh o 0 patience)
  have hfollows : Build.Follows (L := anyLink) s m m :=
    evaluates_evaluateAt_empty o.maxEvaluationDepth.toNat s (.refl s) t ht _ _ hstart hs
  have hrun : m s = ((.ok r, e), s') := hrun
  have hagain := hfollows.later s' (by rw [hrun]; exact .refl s')
  rw [hrun] at hagain
  obtain ⟨halike, hresult, hevaluator⟩ := hagain
  rcases hx : m s' with ⟨⟨x, e'⟩, s₁⟩
  rw [hx] at halike hresult hevaluator
  cases hresult with
  | ok hsame =>
      obtain ⟨rfl, -⟩ := hsame
      refine ⟨e', s₁, hx, halike, hevaluator.guard.trans e.guard.map_id, fun u => ?_⟩
      exact (hevaluator.cache.image u).trans Option.map_id'

/-- In a small store no walk hits its limit. -/
theorem withinLimits_of_size (hsilent : ∀ d ∈ e.diagnostics, d.kind ≠ .evaluationDepthExceeded)
    (hsize : s'.size ≤ Scope.maxDepth) : e.WithinLimits s' := by
  have hsettles := settles_evaluate (o := o) hs ht patience
  rw [hrun] at hsettles
  have hhistory : History o [] s' e := hsettles.fit
  refine ⟨hsilent, fun u v _ c _ w hw _ => ?_⟩
  exact .of_index_lt hsettles.formed ((hhistory.closed.ok c.check w hw).known.trans_le hsize)

variable (htidy : s.Tidy) (hlimits : e.WithinLimits s')

include htidy hlimits

/-- Without aliases, an evaluation that hits no limit gives an evaluated type, and remembers all the
types that it entered: none was met again while it was under evaluation. -/
theorem evaluate_evaluated : Evaluated s' r ∧ e.guard.iterations ≤ e.cache.size := by
  have hsettles := settles_evaluate (o := o) hs ht patience
  have htidy' : (evaluate ⟨.empty, o⟩ t (.fresh o 0 patience) s).2.Tidy :=
    (Tidy.keeps_evaluate ⟨.empty, o⟩ t (.fresh o 0 patience) s htidy).1
  rw [hrun] at hsettles htidy'
  obtain ⟨hgrows, hs', hhistory, -, -, -⟩ := hsettles
  have hhistory : History o [] s' e := hhistory
  -- done again where it has ended, the evaluation finds all types that it makes, so that what it will
  -- remember is known from its start
  obtain ⟨e', s₁, hagain, halike, hguard, hcache⟩ := evaluate_later hs ht hrun
  let R : Ending := ⟨o, s', e'⟩
  have hR : R.Unlimited := by
    refine ⟨?_, fun u v hv => ?_, fun u v hv c hn w hw => ?_⟩
    · change e'.guard.exceeded = false
      rw [hguard]
      by_contra h
      obtain ⟨d, hd, hlimit⟩ := hhistory.told (.inl (by simpa using h))
      exact hlimits.silent d hd hlimit
    · have hv : e.cache[u]? = some v := (hcache u).symm.trans hv
      exact ⟨hhistory.known u v hv, hhistory.closed.ok u v hv⟩
    · exact hlimits.walks u v ((hcache u).symm.trans hv) c hn w ((hcache _).symm.trans hw)
  have hstart : Progress R [] s' (.fresh o 0 patience) :=
    { store := .refl s'
      active_eq := rfl
      depth := rfl
      base := rfl
      maxDepth := rfl
      finished := Nat.zero_le _
      remembered := fun u v h => by simp [Evaluator.fresh] at h }
  have ht' := hgrows.closed ht
  have hlead : Leads R [] (toLex (3 * (s'.depth t + 1), 0)) s'
      (evaluateAt ⟨.empty, o⟩ o.maxEvaluationDepth.toNat) :=
    leads_evaluateAt hR _ (Nat.le_add_left _ _) (by simp)
  obtain ⟨-, -, -, hprogress, hresult, -⟩ := hlead s' (.refl s') hs' htidy' t ht'
    (within_depth hs' ht').rank_lt _ hstart r e' s₁ hagain ⟨fun _ _ h => h, id⟩
  refine ⟨hresult.evaluated.mono halike.symm.toExtends, ?_⟩
  have hfinished := hprogress.finished
  rw [hguard, (Std.HashMap.Equiv.of_forall_getElem?_eq hcache).size_eq] at hfinished
  exact hfinished

end replay

end Context

end TypeResolution
