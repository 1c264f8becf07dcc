import TypeResolution.Proofs.Context.Alone
import TypeResolution.Proofs.Evaluation.Restored

/-!
Without aliases, results do not depend on the history of an evaluator. As long as no limit is hit and
no type is met again while it is under evaluation, a run gives what the evaluation without a history
gives, whatever it remembers and at whatever nesting it starts.
-/

namespace TypeResolution

open Store Replay

/-- Nothing has interfered with an evaluation: no limit was hit, and all types that were entered are
finished and remembered or still under evaluation, so that none was met again meanwhile. -/
structure Evaluator.Undisturbed (e : Evaluator) : Prop where
  silent : ∀ d ∈ e.diagnostics, d.kind ≠ .evaluationDepthExceeded
  counted : e.guard.iterations < UInt32.size - 1
  finished : e.guard.iterations ≤ e.cache.size + e.guard.active.length

instance (e : Evaluator) : Decidable e.Undisturbed :=
  decidable_of_iff ((∀ d ∈ e.diagnostics, d.kind ≠ .evaluationDepthExceeded) ∧
    e.guard.iterations < UInt32.size - 1 ∧
      e.guard.iterations ≤ e.cache.size + e.guard.active.length)
    ⟨fun ⟨silent, counted, finished⟩ => ⟨silent, counted, finished⟩,
      fun h => ⟨h.silent, h.counted, h.finished⟩⟩

theorem Evaluator.Undisturbed.of_idle {e e' : Evaluator} (he' : e'.Undisturbed)
    (h : Replay.Idle e e') : e.Undisturbed where
  silent d hd := he'.silent d (h.diagnostics d hd)
  counted := h.guard ▸ he'.counted
  finished := by
    rw [← h.guard, ← h.cache]
    exact he'.finished

namespace Context

open Eval Limits

/-- An evaluator, in the absence of aliases, that is at work on the given types, the latest first.
What it remembers is what its types evaluate to without a history, unless something interfered. -/
structure History (o : Options) (active : List TypeId) (s : Store) (e : Evaluator) : Prop where
  active_eq : e.guard.active = active
  depth : e.guard.depth = active.length
  base : e.guard.baseDepth = 0
  maxDepth : e.guard.maxDepth = o.maxEvaluationDepth.toNat
  frames : e.frames = []
  told : e.guard.exceeded ∨ e.depthReported → ∃ d ∈ e.diagnostics, IsLimit d
  counted : e.guard.iterations < UInt32.size - 1 →
    e.cache.size + active.length ≤ e.guard.iterations
  closed : CacheSame anyLink s e.cache e.cache
  known : ∀ t r, e.cache[t]? = some r → s.Closed AnyName t
  remembered : e.Undisturbed → ∀ t r, e.cache[t]? = some r →
    Yields ⟨.empty, o⟩ e.cache.size s t r

variable {o : Options} {s s' : Store} {t : TypeId} {active : List TypeId} {fuel : Nat}
  {e e₁ e' : Evaluator} {work : TypeId → Node → Eval TypeId}

namespace History

theorem fresh (o : Options) (patience : Option Nat) (s : Store) :
    History o [] s (.fresh o 0 patience) where
  active_eq := rfl
  depth := rfl
  base := rfl
  maxDepth := rfl
  frames := rfl
  told h := by simp [Evaluator.fresh, Recursion.Guard.ofLimits] at h
  counted _ := by simp [Evaluator.fresh]
  closed := .empty
  known t r h := by simp [Evaluator.fresh] at h
  remembered _ t r h := by simp [Evaluator.fresh] at h

theorem idle (h : History o active s e) (hidle : Replay.Idle e e') : History o active s e' where
  active_eq := hidle.guard ▸ h.active_eq
  depth := hidle.guard ▸ h.depth
  base := hidle.guard ▸ h.base
  maxDepth := hidle.guard ▸ h.maxDepth
  frames := hidle.frames ▸ h.frames
  told := by
    rw [hidle.guard, hidle.depthReported]
    intro htold
    obtain ⟨d, hd, hD⟩ := h.told htold
    exact ⟨d, hidle.diagnostics d hd, hD⟩
  counted := by
    rw [hidle.guard, hidle.cache]
    exact h.counted
  closed := hidle.cache ▸ h.closed
  known := hidle.cache ▸ h.known
  remembered he' := by
    rw [hidle.cache]
    exact h.remembered (he'.of_idle hidle)

theorem mono (h : History o active s e) (hext : s.Extends s') : History o active s' e :=
  { h with
    closed := .mono hext h.closed
    known := fun t r hr => hext.closed (h.known t r hr)
    remembered := fun he t r hr => (h.remembered he t r hr).mono hext }

/-- Once the guard has hit a limit, this is reported. -/
theorem disturbed_of_exceeded (h : History o active s e) (hexceeded : e.guard.exceeded) :
    ¬e.Undisturbed := by
  intro he
  obtain ⟨d, hd, hD⟩ := h.told (.inl hexceeded)
  exact he.silent d hd hD

/-- A step of the guard that enters no type. -/
theorem wasted (h : History o active s e) {b : Bool}
    (hguard : e'.guard = { e.guard.tick with exceeded := b }) (hcache : e'.cache = e.cache)
    (hframes : e'.frames = e.frames)
    (htold : e'.guard.exceeded ∨ e'.depthReported → ∃ d ∈ e'.diagnostics, IsLimit d) :
    History o active s e' ∧ ¬e'.Undisturbed := by
  have hsteps : e'.guard.iterations = min (e.guard.iterations + 1) (UInt32.size - 1) := by
    rw [hguard]
    rfl
  have hactive : e'.guard.active = active := by rw [hguard]; exact h.active_eq
  have hcounted := h.counted
  have hdisturbed : ¬e'.Undisturbed := by
    intro he
    have hlt := he.counted
    have hle := he.finished
    rw [hcache, hactive] at hle
    omega
  refine ⟨⟨hactive, ?_, ?_, ?_, hframes.trans h.frames, htold, ?_, hcache ▸ h.closed,
    hcache ▸ h.known, fun he => absurd he hdisturbed⟩, hdisturbed⟩
  · rw [hguard]; exact h.depth
  · rw [hguard]; exact h.base
  · rw [hguard]; exact h.maxDepth
  · rw [hcache]
    omega

/-- A type is entered. -/
theorem entered (h : History o active s e) (t : TypeId) :
    let e₁ := { e with
      guard := { e.guard.tick with active := t :: e.guard.active, depth := e.guard.depth + 1 } }
    History o (t :: active) s e₁ ∧ (e₁.Undisturbed → e.Undisturbed) := by
  intro e₁
  have hsteps : e₁.guard.iterations = min (e.guard.iterations + 1) (UInt32.size - 1) := rfl
  have hcounted := h.counted
  have hstart : e₁.Undisturbed → e.Undisturbed := by
    rintro ⟨hsilent, hlt, hle⟩
    have hle : e₁.guard.iterations ≤ e.cache.size + (e.guard.active.length + 1) := hle
    exact ⟨hsilent, by omega, by omega⟩
  refine ⟨⟨congrArg _ h.active_eq, congrArg (· + 1) h.depth, h.base, h.maxDepth, h.frames, h.told,
    fun hlt => ?_, h.closed, h.known, fun he => h.remembered (hstart he)⟩, hstart⟩
  have hlength : (t :: active).length = active.length + 1 := rfl
  change e.cache.size + _ ≤ _
  omega

/-- The guard leaves the type that was entered last. -/
theorem left (h : History o (t :: active) s e) :
    let e₁ := { e with guard := e.guard.leave t }
    History o active s e₁ ∧ ¬e₁.Undisturbed := by
  intro e₁
  have hactive : e₁.guard.active = active := by
    change e.guard.active.erase t = active
    rw [h.active_eq, List.erase_cons_head]
  have hlength : (t :: active).length = active.length + 1 := rfl
  have hcounted := h.counted
  have hdisturbed : ¬e₁.Undisturbed := by
    rintro ⟨-, hlt, hle⟩
    have hlt : e.guard.iterations < UInt32.size - 1 := hlt
    rw [hactive] at hle
    have hle : e.guard.iterations ≤ e.cache.size + active.length := hle
    omega
  refine ⟨⟨hactive, ?_, h.base, h.maxDepth, h.frames, h.told, fun hlt => ?_, h.closed,
    h.known, fun he => absurd he hdisturbed⟩, hdisturbed⟩
  · have hdepth := h.depth
    have hbase := h.base
    change max (e.guard.depth - 1) e.guard.baseDepth = _
    omega
  · have hlt : e.guard.iterations < UInt32.size - 1 := hlt
    change e.cache.size + _ ≤ e.guard.iterations
    omega

/-- The guard leaves the type that was entered last, and its result is remembered. -/
theorem finished (h : History o (t :: active) s e) (ht : s.Closed AnyName t) {r : TypeId}
    (hr : s.Closed AnyName r)
    (hyields : e.Undisturbed → Yields ⟨.empty, o⟩ (e.cache.size + 1) s t r) :
    let e₁ := { e with guard := e.guard.leave t, cache := e.cache.insert t r }
    History o active s e₁ ∧
      (e₁.Undisturbed → e.Undisturbed ∧ e₁.cache.size = e.cache.size + 1) := by
  intro e₁
  obtain ⟨hleft, _⟩ := h.left
  have hcounted := h.counted
  have hlength : (t :: active).length = active.length + 1 := rfl
  have hactive : e₁.guard.active = active := hleft.active_eq
  have hsize : e₁.cache.size ≤ e.cache.size + 1 := Std.HashMap.size_insert_le
  have hgrown : e₁.Undisturbed → e.Undisturbed ∧ e₁.cache.size = e.cache.size + 1 := by
    rintro ⟨hsilent, hlt, hle⟩
    have hlt : e.guard.iterations < UInt32.size - 1 := hlt
    rw [hactive] at hle
    have hle : e.guard.iterations ≤ e₁.cache.size + active.length := hle
    refine ⟨⟨hsilent, hlt, ?_⟩, by omega⟩
    rw [h.active_eq]
    omega
  refine ⟨⟨hactive, hleft.depth, h.base, h.maxDepth, h.frames, h.told, fun hlt => ?_,
    h.closed.insert hr, fun u v hv => ?_, fun he u v hv => ?_⟩, hgrown⟩
  · have hlt : e.guard.iterations < UInt32.size - 1 := hlt
    change e₁.cache.size + _ ≤ e.guard.iterations
    omega
  · have hv : (e.cache.insert t r)[u]? = some v := hv
    rw [Std.HashMap.getElem?_insert] at hv
    by_cases htu : t = u
    · exact htu ▸ ht
    · rw [if_neg (by simpa using htu)] at hv
      exact h.known u v hv
  · obtain ⟨he, hsize⟩ := hgrown he
    rw [hsize]
    have hv : (e.cache.insert t r)[u]? = some v := hv
    rw [Std.HashMap.getElem?_insert] at hv
    by_cases htu : t = u
    · rw [if_pos (by simpa using htu)] at hv
      cases hv
      exact htu ▸ hyields he
    · rw [if_neg (by simpa using htu)] at hv
      exact (h.remembered he u v hv).of_le (Nat.le_succ _)

end History

/-- The first evaluator is at work on the given types; the second one has no history, but fuel for
all that the first one remembers. -/
def recording (o : Options) (active : List TypeId) (fuel : Nat) : Regime anyLink where
  fit := History o active
  clear e := e.Undisturbed ∧ e.cache.size ≤ fuel
  ready := Evaluator.Detached
  mono h he := he.mono h
  fit_idle h he := he.idle h
  clear_idle h he := ⟨he.1.of_idle h, h.cache ▸ he.2⟩
  ready_idle h he := he.idle h
  patience he := he.patience

/-- How an evaluation of `t` ends that has a history. -/
structure Settles (o : Options) (active : List TypeId) (t : TypeId) (e : Evaluator) (s : Store)
    (x : End TypeId) : Prop where
  grows : s.Extends x.2
  formed : x.2.Formed
  fit : History o active x.2 x.1.2
  clear : x.1.2.Undisturbed → e.Undisturbed ∧ e.cache.size ≤ x.1.2.cache.size
  closed : ∀ r, x.1.1 = .ok r → x.2.Closed AnyName r
  yields : x.1.2.Undisturbed → ∀ r, x.1.1 = .ok r →
    Yields ⟨.empty, o⟩ x.1.2.cache.size x.2 t r

namespace Settles

theorem ends {m : Eval TypeId} (h : Settles o active t e s (m e s)) (fuel : Nat) :
    (recording o active fuel).Ends s m (aloneAt ⟨.empty, o⟩ fuel t) e where
  grows := h.grows
  formed := h.formed
  fit := h.fit
  clear := fun ⟨he, hle⟩ => ⟨(h.clear he).1, Nat.le_trans (h.clear he).2 hle⟩
  partner r hr := ⟨r, rfl, h.closed r hr⟩
  later := by
    rintro ⟨he, hle⟩ r hr e' F he' hF hext
    obtain ⟨e₁, F₁, hrun, he₁, halike⟩ := ((h.yields he r hr).of_le hle).runs e' F he' hF hext
    exact ⟨r, e₁, F₁, hrun, he₁, halike, rfl, h.closed r hr⟩

theorem of_idle {x : End TypeId} (h : Settles o active t e' s x) (hidle : Replay.Idle e e') :
    Settles o active t e s x :=
  { h with
    clear := fun hx => ⟨(h.clear hx).1.of_idle hidle, hidle.cache ▸ (h.clear hx).2⟩ }

/-- The run of an evaluation that looks at no other type. -/
theorem stop (hs : s.Formed) (he : History o active s e) {r : TypeId} (hr : s.Closed AnyName r)
    (hyields : e.Undisturbed → Yields ⟨.empty, o⟩ e.cache.size s t r) :
    Settles o active t e s ((.ok r, e), s) where
  grows := .refl s
  formed := hs
  fit := he
  clear h := ⟨h, Nat.le_refl _⟩
  closed := by
    rintro _ ⟨⟩
    exact hr
  yields h := by
    rintro _ ⟨⟩
    exact hyields h

theorem disturbed (hs : s.Formed) (ht : s.Closed AnyName t)
    (he : History o active s e' ∧ ¬e'.Undisturbed) : Settles o active t e s ((.ok t, e'), s) where
  grows := .refl s
  formed := hs
  fit := he.1
  clear h := absurd h he.2
  closed := by
    rintro _ ⟨⟩
    exact ht
  yields h := absurd h he.2

end Settles

section guard

theorem unlessNested_start {setting : Setting} (hfixed : t.isFixed = false) (fuel : Nat)
    (he : e.Detached) (s : Store) : aloneAt setting (fuel + 1) t e s =
      node (aloneAt setting fuel) setting t (s.node t) e s := by
  change unlessNested setting t _ e s = _
  rw [unlessNested_run he, if_neg (by simp [hfixed])]
  rfl

/-- The work on a type that was entered. -/
theorem settles_workOn (ht : s.Closed AnyName t) (hfixed : t.isFixed = false)
    (hwork : ∀ fuel, (recording o (t :: active) fuel).Ends s (work t (s.node t))
      (node (aloneAt ⟨.empty, o⟩ fuel) ⟨.empty, o⟩ t (s.node t)) e)
    (hstart : e.Undisturbed → e'.Undisturbed) (hcache : e.cache = e'.cache) :
    Settles o active t e' s (workOn work t e s) := by
  have hrun : workOn work t e s = finish t (work t (s.node t) e s) := entered_run work t e s
  have hend := hwork (work t (s.node t) e s).1.2.cache.size
  rw [hrun]
  rcases hx : work t (s.node t) e s with ⟨⟨r, e₂⟩, s₂⟩
  obtain ⟨hgrows, hformed, hfit, hclear, hpartner, hlater⟩ := hend
  rw [hx] at hgrows hformed hfit hclear hpartner hlater
  have hfit : History o (t :: active) s₂ e₂ := hfit
  cases r with
  | error c =>
      exact ⟨hgrows, hformed, hfit.left.1, fun h => absurd h hfit.left.2, nofun,
        fun h => absurd h hfit.left.2⟩
  | ok r =>
      obtain ⟨_, _, hr⟩ := hpartner r rfl
      have hyields : e₂.Undisturbed → Yields ⟨.empty, o⟩ (e₂.cache.size + 1) s₂ t r := by
        intro he₂
        refine ⟨hgrows.closed ht, hr, fun e' F he' hF hext => ?_⟩
        obtain ⟨_, e₁, F₁, hrun', he₁, halike, rfl, _⟩ :=
          hlater ⟨he₂, Nat.le_refl _⟩ r rfl e' F he' hF hext
        refine ⟨e₁, F₁, ?_, he₁, halike⟩
        rw [unlessNested_start hfixed _ he', (hgrows.trans hext).node_eq t ht.known]
        exact hrun'
      cases hexceeded : e₂.guard.exceeded with
      | true =>
          have hdisturbed : ¬{ e₂ with guard := e₂.guard.leave t }.Undisturbed := hfit.left.2
          have hfinish : finish t ((.ok r, e₂), s₂) =
              ((.ok r, { e₂ with guard := e₂.guard.leave t }), s₂) := by
            simp [finish, hexceeded]
          rw [hfinish]
          exact ⟨hgrows, hformed, hfit.left.1, fun h => absurd h hdisturbed,
            by rintro _ ⟨⟩; exact hr, fun h => absurd h hdisturbed⟩
      | false =>
          obtain ⟨hfinished, hgrown⟩ := hfit.finished (hgrows.closed ht) hr hyields
          have hfinish : finish t ((.ok r, e₂), s₂) = ((.ok r, { e₂ with
              guard := e₂.guard.leave t, cache := e₂.cache.insert t r }), s₂) := by
            simp [finish, hexceeded]
          rw [hfinish]
          refine ⟨hgrows, hformed, hfinished, fun h => ?_, by rintro _ ⟨⟩; exact hr, fun h => ?_⟩
          · obtain ⟨he₂, hsize⟩ := hgrown h
            obtain ⟨he, hle⟩ := hclear ⟨he₂, Nat.le_refl _⟩
            refine ⟨hstart he, ?_⟩
            rw [hsize, ← hcache]
            exact Nat.le_succ_of_le hle
          · rintro _ ⟨⟩
            obtain ⟨he₂, hsize⟩ := hgrown h
            rw [hsize]
            exact hyields he₂

/-- Where no alias is expanded, a type that is met again stays as it is. -/
theorem reenterCycle_run {setting : Setting} (he : e.frames = []) (s : Store) :
    reenterCycle setting t e s = ((.ok t, e), s) := by
  have hnode : (liftM (Build.node t) : Eval Node).run e s = ((.ok (s.node t), e), s) := rfl
  change (reenterCycle setting t).run e s = _
  unfold reenterCycle
  rw [run_bind, hnode]
  cases s.node t with
  | reference name args =>
      have hget : (get : Eval Evaluator).run e s = ((.ok e, e), s) := rfl
      dsimp only
      rw [run_bind, hget]
      dsimp only
      rw [he]
      rfl
  | _ => rfl

/-- A limit is hit. -/
theorem settles_leaveAsIs (hs : s.Formed) (ht : s.Closed AnyName t) (he : History o active s e) :
    Settles o active t e s
      (leaveAsIs t { e with guard := { e.guard.tick with exceeded := true } } s) := by
  rw [leaveAsIs_run]
  dsimp only
  cases hreported : e.depthReported with
  | true =>
      exact .disturbed hs ht (he.wasted rfl rfl rfl fun _ => he.told (.inr hreported))
  | false =>
      have htold : ∀ args site,
          IsLimit ((Diagnostic.of .evaluationDepthExceeded args).withLocation site) :=
        fun _ _ => rfl
      obtain ⟨e', hreport, hidle, hmem⟩ := Regime.report_run
        ((Diagnostic.of .evaluationDepthExceeded [toString e.guard.tick.maxDepth]).withLocation
          (s.origin? (.type t)))
        { e with guard := { e.guard.tick with exceeded := true }, depthReported := true } s
      rw [if_neg (by simp), hreport]
      exact .disturbed hs ht (he.wasted hidle.guard hidle.cache hidle.frames fun _ =>
        ⟨_, hmem, htold _ _⟩)

/-- The guard is asked for a type. -/
theorem settles_enter (hs : s.Formed) (ht : s.Closed AnyName t) (hfixed : t.isFixed = false)
    (he : History o active s e) (hwithin : e.guard.exceeded = false)
    (hwork : active.length < o.maxEvaluationDepth.toNat → ∀ e₁, History o (t :: active) s e₁ →
      ∀ fuel, (recording o (t :: active) fuel).Ends s (work t (s.node t))
        (node (aloneAt ⟨.empty, o⟩ fuel) ⟨.empty, o⟩ t (s.node t)) e₁) :
    Settles o active t e s ((Eval.enter t >>= afterEnterType work ⟨.empty, o⟩ t) e s) := by
  have henter : (Eval.enter t >>= afterEnterType work ⟨.empty, o⟩ t) e s =
      afterEnterType work ⟨.empty, o⟩ t (e.guard.enter t).1
        { e with guard := (e.guard.enter t).2 } s := rfl
  rw [henter]
  unfold Recursion.Guard.enter
  dsimp only
  split
  · exact settles_leaveAsIs hs ht he
  split
  · exact settles_leaveAsIs hs ht he
  split
  · let e' := { e with guard := e.guard.tick }
    have hguard : e'.guard = { e.guard.tick with exceeded := false } := by
      rw [← hwithin]
      rfl
    have hwasted : History o active s e' ∧ ¬e'.Undisturbed := he.wasted hguard rfl rfl he.told
    have hframes : e'.frames = [] := he.frames
    change Settles o active t e s (reenterCycle ⟨.empty, o⟩ t e' s)
    rw [reenterCycle_run hframes]
    exact .disturbed hs ht hwasted
  · rename_i hdepth _
    obtain ⟨hentered, hstart⟩ := he.entered t
    have hlt : active.length < o.maxEvaluationDepth.toNat := by
      rw [← he.depth, ← he.maxDepth]
      exact Nat.lt_of_not_le hdepth
    exact settles_workOn ht hfixed (hwork hlt _ hentered) hstart rfl

theorem yields_fixed (hs : s.Formed) (hfixed : t.isFixed) (fuel : Nat) :
    Yields ⟨.empty, o⟩ fuel s t t := by
  refine ⟨ok_of_fixed hs hfixed, ok_of_fixed hs hfixed, fun e F he hF hext => ⟨e, F, ?_, he, .refl F⟩⟩
  cases fuel <;>
  · change unlessNested _ _ _ e F = _
    rw [unlessNested_run he, if_pos hfixed]

/-- What is remembered is asked first. -/
theorem settles_consult (hs : s.Formed) (ht : s.Closed AnyName t) (hfixed : t.isFixed = false)
    (he : History o active s e)
    (hwork : active.length < o.maxEvaluationDepth.toNat → ∀ e₁, History o (t :: active) s e₁ →
      ∀ fuel, (recording o (t :: active) fuel).Ends s (work t (s.node t))
        (node (aloneAt ⟨.empty, o⟩ fuel) ⟨.empty, o⟩ t (s.node t)) e₁) :
    Settles o active t e s ((do
      if let some known := (← get).cache[t]? then
        return known
      if (← get).guard.exceeded then
        return t
      Eval.enter t >>= afterEnterType work ⟨.empty, o⟩ t : Eval TypeId).run e s) := by
  have hget : (get : Eval Evaluator).run e s = ((.ok e, e), s) := rfl
  cases hcache : e.cache[t]? with
  | some known =>
      simp only [run_bind, hget, hcache]
      exact .stop hs he (he.closed.ok t known hcache) fun h => he.remembered h t known hcache
  | none =>
      cases hexceeded : e.guard.exceeded with
      | true =>
          simp only [run_bind, hget, hcache, hexceeded]
          exact .disturbed hs ht ⟨he, he.disturbed_of_exceeded hexceeded⟩
      | false =>
          simp only [run_bind, hget, hcache, hexceeded]
          have henter := settles_enter hs ht hfixed he hexceeded hwork
          exact henter

theorem settles_guarded (hs : s.Formed) (ht : s.Closed AnyName t) (he : History o active s e)
    (hwork : active.length < o.maxEvaluationDepth.toNat → ∀ e₁, History o (t :: active) s e₁ →
      ∀ fuel, (recording o (t :: active) fuel).Ends s (work t (s.node t))
        (node (aloneAt ⟨.empty, o⟩ fuel) ⟨.empty, o⟩ t (s.node t)) e₁) :
    Settles o active t e s (guarded work ⟨.empty, o⟩ t e s) := by
  change Settles o active t e s ((guarded work ⟨.empty, o⟩ t).run e s)
  unfold guarded
  cases hfixed : t.isFixed with
  | true => exact .stop hs he (ok_of_fixed hs hfixed) fun _ => yields_fixed hs hfixed _
  | false =>
      rw [if_neg (by simp), run_bind, poll_run]
      rcases hpatience : e.patience with _ | _ | n
      · exact settles_consult hs ht hfixed he hwork
      · exact ⟨.refl s, hs, he, fun h => ⟨h, Nat.le_refl _⟩, nofun, fun _ => nofun⟩
      · have hidle : Replay.Idle e { e with patience := some n } :=
          ⟨rfl, rfl, rfl, rfl, fun _ h => h, fun h => by simp [hpatience] at h⟩
        exact (settles_consult hs ht hfixed (he.idle hidle) hwork).of_idle hidle

end guard

section runs

/-- Questions of assignability have the same answers at the top and where the evaluation is. -/
theorem decides_recording {depth : Nat} (h : o.maxEvaluationDepth.toNat ≤ active.length + depth) :
    @Decides anyLink (recording o active fuel).runs s
      (isAssignable (evaluateAt ⟨.empty, o⟩ depth) ⟨.empty, o⟩)
      (isAssignable (aloneAt ⟨.empty, o⟩ fuel) ⟨.empty, o⟩) := by
  have hwiden : o.Widens o := ⟨UInt32.le_refl _, UInt32.le_refl _, UInt32.le_refl _, rfl, rfl⟩
  refine decides_alone (D := IsLimit) (fun e he => he.depth) (fun e he => he.1.silent) ?_ ?_
  · intro e s he s₁ h₁ t ht
    exact evaluates_evaluateAt_empty depth s₁ (.refl s₁) t ht _ _ (same_fresh _ s₁)
  · intro e s source target he
    have hdepth : e.guard.depth = 0 + active.length := by rw [he.depth, Nat.zero_add]
    rw [hdepth]
    refine checkTogether_isAssignable (raised active.length hwiden)
      ((raised active.length hwiden).nestedTogether fun t => ?_) source target
    exact together_evaluateAt _ (unfolds_evaluateAt ⟨.empty, o⟩) (Nat.le_refl 0) (by omega) t

/-- A run that has a history gives what the run without one gives. -/
theorem settles_evaluateAt {depth : Nat} (h : o.maxEvaluationDepth.toNat ≤ active.length + depth)
    (hs : s.Formed) (ht : s.Closed AnyName t) (he : History o active s e) :
    Settles o active t e s (evaluateAt ⟨.empty, o⟩ depth t e s) := by
  induction depth generalizing active s t e with
  | zero => exact settles_guarded hs ht he fun hlt => absurd hlt (Nat.not_lt_of_le h)
  | succ depth ih =>
      refine settles_guarded hs ht he fun _ e₁ he₁ fuel => ?_
      let _ := (recording o (t :: active) fuel).runs
      have _ := (recording o (t :: active) fuel).steady
      have hlimit : o.maxEvaluationDepth.toNat ≤ (t :: active).length + depth := by
        rw [List.length_cons]
        omega
      have hi : Evaluates anyLink s (evaluateAt ⟨.empty, o⟩ depth) (aloneAt ⟨.empty, o⟩ fuel) :=
        fun s₁ _ u hu hs₁ e he => (ih hlimit hs₁ hu he).ends fuel
      have hnode : Follows anyLink s (node (evaluateAt ⟨.empty, o⟩ depth) ⟨.empty, o⟩ t (s.node t))
          (node (aloneAt ⟨.empty, o⟩ fuel) ⟨.empty, o⟩ t ((s.node t).mapIds anyLink)) :=
        follows_evalNode (.of_agrees (agrees_empty s)) hi (decides_recording hlimit) ht ht.node
          fun _ _ _ => follows_reference_empty ht _ _ _
      rw [Node.mapIds_same] at hnode
      exact hnode hs e₁ he₁

theorem settles_evaluate (hs : s.Formed) (ht : s.Closed AnyName t) (patience : Option Nat) :
    Settles o [] t (.fresh o 0 patience) s
      (evaluate ⟨.empty, o⟩ t (.fresh o 0 patience) s) :=
  settles_evaluateAt (Nat.le_add_left o.maxEvaluationDepth.toNat 0) hs ht (.fresh o patience s)

end runs

end Context

end TypeResolution
