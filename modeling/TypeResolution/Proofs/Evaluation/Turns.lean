import TypeResolution.Proofs.Evaluation.Restored

/-!
What the evaluation of one type can do. Its result is remembered, or a limit is hit, or the type is
met again while it is under evaluation, or the type is entered and its node is evaluated.
-/

namespace TypeResolution.Eval

open Limits Recursion

variable {work : TypeId → Node → Eval TypeId} {setting : Setting} {t : TypeId} {e e' : Evaluator}
  {s : Store}

/-- The evaluator has hit a limit. It remembers what it did, and is where it was. -/
structure Halts (e e' : Evaluator) : Prop where
  exceeded : e'.guard.exceeded
  patience : e'.patience = e.patience
  cache : e'.cache = e.cache
  active : e'.guard.active = e.guard.active
  depth : e'.guard.depth = e.guard.depth
  baseDepth : e'.guard.baseDepth = e.guard.baseDepth
  maxDepth : e'.guard.maxDepth = e.guard.maxDepth
  limits : ∀ d ∈ e'.diagnostics, d ∈ e.diagnostics ∨ d.kind = .evaluationDepthExceeded

/-- How the evaluation of `t` ends, if `t` is not a fixed type. -/
inductive Turn (work : TypeId → Node → Eval TypeId) (setting : Setting) (t : TypeId) (e : Evaluator)
    (s : Store) : End TypeId → Prop
  | known {r : TypeId} (h : e.cache[t]? = some r) : Turn work setting t e s ((.ok r, e), s)
  | halted {e' : Evaluator} (h : Halts e e') : Turn work setting t e s ((.ok t, e'), s)
  | cycle (hactive : t ∈ e.guard.active) :
      Turn work setting t e s (reenterCycle setting t { e with guard := e.guard.tick } s)
  | entered (hcache : e.cache[t]? = none) (hactive : t ∉ e.guard.active)
      (hdepth : e.guard.depth < e.guard.maxDepth) :
      Turn work setting t e s (finish t (work t (s.node t) { e with
        guard := { e.guard.tick with
          active := t :: e.guard.active, depth := e.guard.depth + 1 } } s))

/-- Where a type is left as it is, the limit is all that is reported. -/
theorem mem_diagnostics_leaveAsIs (t : TypeId) (e : Evaluator) (s : Store) (d : Diagnostic)
    (hd : d ∈ (leaveAsIs t e s).1.2.diagnostics) :
    d ∈ e.diagnostics ∨ d.kind = .evaluationDepthExceeded := by
  rw [leaveAsIs_run] at hd
  dsimp only at hd
  split at hd
  · exact .inl hd
  · set limit := (Diagnostic.of .evaluationDepthExceeded [toString e.guard.maxDepth]).withLocation
      (s.origin? (.type t))
    have hreport : (Eval.report limit { e with depthReported := true } s).1.2 =
        if e.diagnostics.contains limit then { e with depthReported := true }
        else { e with depthReported := true, diagnostics := e.diagnostics.push limit } := rfl
    rw [hreport] at hd
    split at hd
    · exact .inl hd
    · rcases Array.mem_push.mp hd with hd | rfl
      · exact .inl hd
      · exact .inr rfl

theorem Turn.of_leaveAsIs : Turn work setting t e s
    (leaveAsIs t { e with guard := { e.guard.tick with exceeded := true } } s) := by
  have hreports : Reports (leaveAsIs t) :=
    reports_bind (reports_reportDepthExceeded t) fun _ => reports_pure t
  obtain ⟨r, cycles, reported, ds, hrun⟩ :=
    hreports { e with guard := { e.guard.tick with exceeded := true } } s
  have hr : .ok t = Except.ok r := (congrArg (·.1.1) (leaveAsIs_run t _ s)).symm.trans
    (congrArg (·.1.1) hrun)
  cases hr
  have hlimits := mem_diagnostics_leaveAsIs t { e with guard := { e.guard.tick with exceeded := true } } s
  change ∀ d ∈ ((leaveAsIs t).run _ s).1.2.diagnostics, _ at hlimits
  change Turn work setting t e s ((leaveAsIs t).run _ s)
  rw [hrun] at hlimits ⊢
  exact .halted ⟨rfl, rfl, rfl, rfl, rfl, rfl, rfl, hlimits⟩

theorem turn_enter (hcache : e.cache[t]? = none) : Turn work setting t e s
    ((Eval.enter t >>= afterEnterType work setting t) e s) := by
  have henter : (Eval.enter t >>= afterEnterType work setting t) e s =
      afterEnterType work setting t (e.guard.enter t).1
        { e with guard := (e.guard.enter t).2 } s := rfl
  rw [henter]
  unfold Guard.enter
  dsimp only
  split
  · exact .of_leaveAsIs
  split
  · exact .of_leaveAsIs
  split
  · exact .cycle ‹_›
  · rename_i hdepth hactive
    have hrun : afterEnterType work setting t .entered { e with guard := { e.guard.tick with
        active := t :: e.guard.active, depth := e.guard.depth + 1 } } s =
        finish t (work t (s.node t) { e with guard := { e.guard.tick with
          active := t :: e.guard.active, depth := e.guard.depth + 1 } } s) := entered_run work t _ s
    exact hrun ▸ .entered hcache hactive (Nat.lt_of_not_le hdepth)

/-- The cases of an evaluation that is not cancelled at its start. -/
theorem turn_polled (hfixed : t.isFixed = false) (hpoll : poll.run e s = ((.ok (), e'), s)) :
    Turn work setting t e' s (guarded work setting t e s) := by
  have hget : (get : Eval Evaluator).run e' s = ((.ok e', e'), s) := rfl
  change Turn work setting t e' s ((guarded work setting t).run e s)
  unfold guarded
  rw [if_neg (by simp [hfixed]), run_bind, hpoll]
  cases hcache : e'.cache[t]? with
  | some known =>
      simp only [run_bind, hget, hcache]
      exact .known hcache
  | none =>
      cases hexceeded : e'.guard.exceeded with
      | true =>
          simp only [run_bind, hget, hcache, hexceeded]
          exact .halted ⟨hexceeded, rfl, rfl, rfl, rfl, rfl, rfl, fun _ => .inl⟩
      | false =>
          simp only [run_bind, hget, hcache, hexceeded]
          exact turn_enter hcache

/-- An evaluation that is done was not cancelled at its start. -/
theorem turn_of_done {e₁ : Evaluator} {s₁ : Store} {r : TypeId} (hfixed : t.isFixed = false)
    (hrun : guarded work setting t e s = ((.ok r, e₁), s₁)) :
    ∃ p, Turn work setting t { e with patience := p } s ((.ok r, e₁), s₁) := by
  have hturn : ∀ p, poll.run e s = ((.ok (), { e with patience := p }), s) →
      Turn work setting t { e with patience := p } s ((.ok r, e₁), s₁) := fun p hpoll =>
    hrun ▸ turn_polled hfixed hpoll
  have hpoll := poll_run e s
  cases hpatience : e.patience with
  | none =>
      rw [hpatience] at hpoll
      exact ⟨none, hturn none (hpatience ▸ hpoll)⟩
  | some n =>
      rw [hpatience] at hpoll
      cases n with
      | zero =>
          have hrun : (guarded work setting t).run e s = _ := hrun
          unfold guarded at hrun
          rw [if_neg (by simp [hfixed]), run_bind, hpoll] at hrun
          cases hrun
      | succ n => exact ⟨some n, hturn (some n) hpoll⟩

theorem turn_guarded (hfixed : t.isFixed = false) (hpatience : e.patience = none) :
    Turn work setting t e s (guarded work setting t e s) :=
  turn_polled hfixed (by rw [poll_run, hpatience])

/-- A type that is met again stays as it is, unless it is a reference. -/
theorem reenterCycle_of_ne_reference (hn : ∀ name args, s.node t ≠ .reference name args)
    (e : Evaluator) : reenterCycle setting t e s = ((.ok t, e), s) := by
  have hnode : (liftM (Build.node t) : Eval Node).run e s = ((.ok (s.node t), e), s) := rfl
  change (reenterCycle setting t).run e s = _
  unfold reenterCycle
  rw [run_bind, hnode]
  cases hnode : s.node t with
  | reference name args => exact absurd hnode (hn name args)
  | _ => rfl

/-- A step that reports nothing but that a limit is hit, and leaves the evaluator where it is. -/
structure Passes (e e' : Evaluator) : Prop where
  active : e'.guard.active = e.guard.active
  exceeded : e.guard.exceeded → e'.guard.exceeded
  silent : e'.guard.exceeded ∨ e'.diagnostics = e.diagnostics
  limits : ∀ d ∈ e'.diagnostics, d ∈ e.diagnostics ∨ d.kind = .evaluationDepthExceeded

namespace Passes

variable {e₁ : Evaluator}

theorem of_eq (hactive : e'.guard.active = e.guard.active)
    (hexceeded : e'.guard.exceeded = e.guard.exceeded) (hdiagnostics : e'.diagnostics = e.diagnostics) :
    Passes e e' :=
  ⟨hactive, fun he => hexceeded ▸ he, .inr hdiagnostics, fun _ hd => .inl (hdiagnostics ▸ hd)⟩

theorem refl (e : Evaluator) : Passes e e := .of_eq rfl rfl rfl

theorem trans (h : Passes e e₁) (h' : Passes e₁ e') : Passes e e' where
  active := h'.active.trans h.active
  exceeded he := h'.exceeded (h.exceeded he)
  silent := by
    rcases h'.silent with he | hdiagnostics
    · exact .inl he
    · rw [hdiagnostics]
      exact h.silent.imp h'.exceeded id
  limits d hd := (h'.limits d hd).elim (h.limits d) .inr

theorem halted (h : Halts e e') : Passes e e' :=
  ⟨h.active, fun _ => h.exceeded, .inl h.exceeded, h.limits⟩

/-- A type is entered, and left again. -/
theorem finish {x : End TypeId} (h : Passes { e with
    guard := { e.guard.tick with
      active := t :: e.guard.active, depth := e.guard.depth + 1 } } x.1.2) :
    Passes e (Eval.finish t x).1.2 := by
  obtain ⟨hactive, hexceeded, hsilent, hlimits⟩ := h
  refine ⟨?_, ?_, ?_, ?_⟩
  · rw [finish_guard]
    change x.1.2.guard.active.erase t = _
    rw [hactive, List.erase_cons_head]
  · rw [finish_exceeded]
    exact hexceeded
  · rw [finish_exceeded, finish_diagnostics]
    exact hsilent
  · rw [finish_diagnostics]
    exact hlimits

end Passes

end TypeResolution.Eval
