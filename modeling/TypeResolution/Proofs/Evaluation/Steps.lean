import TypeResolution.Proofs.Store.Formed
import TypeResolution.Resolution

/-!
Single steps of an evaluation, as equations about its run: what the first visit of a type does, and
what a reference to an alias without parameters leads to.
-/

namespace TypeResolution

namespace Eval

theorem run_bind {α β : Type} (m : Eval α) (f : α → Eval β) (e : Evaluator) (s : Store) :
    (m >>= f).run e s =
      match m.run e s with
      | ((.ok a, e'), s') => (f a).run e' s'
      | ((.error c, e'), s') => ((.error c, e'), s') := by
  change ExceptT.bindCont f (m.run e s).1.1 (m.run e s).1.2 (m.run e s).2 = _
  rcases h : m.run e s with ⟨⟨r, e'⟩, s'⟩
  cases r <;> rfl

theorem guarded_fixed {work : TypeId → Node → Eval TypeId} {setting : Setting} {t : TypeId}
    (ht : t.isFixed) (e : Evaluator) (s : Store) :
    (guarded work setting t).run e s = ((.ok t, e), s) := by
  unfold guarded
  rw [if_pos ht]
  rfl

theorem evaluateAt_fixed {setting : Setting} {t : TypeId} (ht : t.isFixed) (depth : Nat)
    (e : Evaluator) (s : Store) : (evaluateAt setting depth t).run e s = ((.ok t, e), s) := by
  cases depth <;> exact guarded_fixed ht e s

/-- Where a run ends. -/
abbrev End (α : Type) := (Except Cancelled α × Evaluator) × Store

/-- What an evaluation does after it has worked on its type. -/
def finish (t : TypeId) : End TypeId → End TypeId
  | ((.error c, e), s) => ((.error c, { e with guard := e.guard.leave t }), s)
  | ((.ok result, e), s) => ((.ok result, { e with
      guard := e.guard.leave t
      cache := if e.guard.exceeded then e.cache else e.cache.insert t result }), s)

theorem finish_result (t : TypeId) (x : End TypeId) : (finish t x).1.1 = x.1.1 := by
  rcases x with ⟨⟨_ | r, e⟩, s⟩ <;> rfl

theorem finish_store (t : TypeId) (x : End TypeId) : (finish t x).2 = x.2 := by
  rcases x with ⟨⟨_ | r, e⟩, s⟩ <;> rfl

theorem finish_exceeded (t : TypeId) (x : End TypeId) :
    (finish t x).1.2.guard.exceeded = x.1.2.guard.exceeded := by
  rcases x with ⟨⟨_ | r, e⟩, s⟩ <;> rfl

theorem finish_guard (t : TypeId) (x : End TypeId) :
    (finish t x).1.2.guard = x.1.2.guard.leave t := by
  rcases x with ⟨⟨_ | r, e⟩, s⟩ <;> rfl

theorem finish_diagnostics (t : TypeId) (x : End TypeId) :
    (finish t x).1.2.diagnostics = x.1.2.diagnostics := by
  rcases x with ⟨⟨_ | r, e⟩, s⟩ <;> rfl

theorem isOk_finish (t : TypeId) (r : End TypeId) : (finish t r).1.1.isOk = r.1.1.isOk := by
  rcases r with ⟨⟨_ | _, _⟩, _⟩ <;> rfl

theorem entered_run (work : TypeId → Node → Eval TypeId) (t : TypeId) (e : Evaluator) (s : Store) :
    (do
      let n ← Build.node t
      let result ← leaving t (work t n)
      unless (← get).guard.exceeded do
        remember t result
      return result : Eval TypeId).run e s = finish t ((work t (s.node t)).run e s) := by
  have hnode : (liftM (Build.node t) : Eval Node).run e s = ((.ok (s.node t), e), s) := rfl
  have hleave : (leaving t (work t (s.node t))).run e s =
      ((((work t (s.node t)).run e s).1.1, { ((work t (s.node t)).run e s).1.2 with
        guard := ((work t (s.node t)).run e s).1.2.guard.leave t }),
        ((work t (s.node t)).run e s).2) := rfl
  rw [run_bind, hnode]
  dsimp only
  rw [run_bind, hleave]
  rcases (work t (s.node t)).run e s with ⟨⟨_ | result, e₁⟩, s₁⟩
  · rfl
  · dsimp only
    rw [run_bind]
    change (if e₁.guard.exceeded then (pure result : Eval TypeId)
      else remember t result >>= fun _ => pure result).run _ _ = ((.ok result, _), s₁)
    cases he₁ : e₁.guard.exceeded <;> rfl

/-- The first visit of a type that is not known yet. -/
theorem guarded_run_entered {work : TypeId → Node → Eval TypeId} {setting : Setting} {t : TypeId}
    {e e₀ : Evaluator} {s : Store} (hfixed : t.isFixed = false) (hpoll : poll.run e s = ((.ok (), e₀), s))
    (hcache : e₀.cache[t]? = none) (hexceeded : e₀.guard.exceeded = false)
    (henter : (e₀.guard.enter t).1 = .entered) :
    (guarded work setting t).run e s =
      finish t ((work t (s.node t)).run { e₀ with guard := (e₀.guard.enter t).2 } s) := by
  have hget : (get : Eval Evaluator).run e₀ s = ((.ok e₀, e₀), s) := rfl
  have hrun : (Eval.enter t).run e₀ s =
      ((.ok (e₀.guard.enter t).1, { e₀ with guard := (e₀.guard.enter t).2 }), s) := rfl
  unfold guarded
  rw [if_neg (by simp [hfixed]), run_bind, hpoll]
  dsimp only
  rw [run_bind, hget]
  dsimp only
  rw [hcache]
  dsimp only
  rw [run_bind, hget]
  dsimp only
  rw [if_neg (by simp [hexceeded]), run_bind, hrun, henter]
  exact entered_run work t _ s

theorem guarded_entered {work : TypeId → Node → Eval TypeId} {setting : Setting} {t : TypeId}
    {e : Evaluator} {s : Store} (hfixed : t.isFixed = false) (hpatience : e.patience = none)
    (hcache : e.cache[t]? = none) (hexceeded : e.guard.exceeded = false)
    (henter : (e.guard.enter t).1 = .entered) :
    (guarded work setting t).run e s =
      finish t ((work t (s.node t)).run { e with guard := (e.guard.enter t).2 } s) := by
  have hget : (get : Eval Evaluator).run e s = ((.ok e, e), s) := rfl
  have hpoll : poll.run e s = ((.ok (), e), s) := by
    unfold poll
    rw [run_bind, hget]
    dsimp only
    rw [hpatience]
    rfl
  exact guarded_run_entered hfixed hpoll hcache hexceeded henter

theorem expanding_result {α : Type} (name : String) (args : List TypeId) (step : Eval α) (e : Evaluator)
    (s : Store) : ((expanding name args step).run e s).1.1 =
      (step.run { e with frames := ⟨name, args, e.productive⟩ :: e.frames } s).1.1 := rfl

/-- A reference to an alias without parameters that is not under expansion. -/
theorem reference_plain {inner : TypeId → Eval TypeId} {env : Environment} {options : Options}
    {t : TypeId} {name : String} {a : Alias} {e : Evaluator} {s : Store}
    (hget : env.get? name = some a) (hparams : a.params = [])
    (hframes : e.frames.find? (fun f => f.name = name && f.args = []) = none) :
    (Eval.reference inner ⟨env, options⟩ t name []).run e s =
      (expanding name [] (inner a.body)).run e s := by
  have hinstantiate : (liftM (Build.instantiate (.ofArgs [] []) a.body) : Eval TypeId).run e s =
      ((.ok a.body, e), s) := rfl
  unfold Eval.reference
  simp only [hget]
  have hstate : (get : Eval Evaluator).run e s = ((.ok e, e), s) := rfl
  rw [List.mapM_nil, pure_bind, run_bind, hstate]
  dsimp only
  rw [hframes, hparams]
  dsimp only
  rw [run_bind, hinstantiate]

/-- A reference that leads, in one step, to an alias without parameters. -/
theorem evaluateAt_plain {env : Environment} {options : Options} {depth : Nat} {t : TypeId}
    {name : String} {a : Alias} {e : Evaluator} {s : Store} (hfixed : t.isFixed = false)
    (hnode : s.node t = .reference name []) (hpatience : e.patience = none)
    (hcache : e.cache[t]? = none) (hexceeded : e.guard.exceeded = false)
    (henter : (e.guard.enter t).1 = .entered) (hget : env.get? name = some a)
    (hparams : a.params = [])
    (hframes : e.frames.find? (fun f => f.name = name && f.args = []) = none) :
    (evaluateAt ⟨env, options⟩ (depth + 1) t).run e s =
      finish t ((expanding name [] (evaluateAt ⟨env, options⟩ depth a.body)).run
        { e with guard := (e.guard.enter t).2 } s) := by
  rw [evaluateAt, guarded_entered hfixed hpatience hcache hexceeded henter, hnode, node,
    reference_plain (e := { e with guard := (e.guard.enter t).2 }) hget hparams hframes]

theorem isAssignable_plain {inner : TypeId → Eval TypeId} {setting : Setting} {a b : TypeId}
    {e : Evaluator} {s : Store} :
    let v := Check.subtypeAt ⟨inner, .fresh setting.options e.guard.depth none⟩
      setting.options.maxSubtypeDepth.toNat a b (.fresh setting.options) s
    v.1.2.diagnostics = #[] →
      (isAssignable inner setting a b).run e s = ((.ok v.1.1, e), v.2) := by
  intro v hquiet
  have hrun : (isAssignable inner setting a b).run e s =
      (do reportAll v.1.2.diagnostics; return v.1.1 : Eval Bool).run e v.2 := rfl
  rw [hrun, hquiet]
  rfl

/-- A check type that is not split. -/
theorem conditional_unsplit {inner : TypeId → Eval TypeId} {setting : Setting} {t check : TypeId}
    {c : Conditional} {e e' : Evaluator} {s s' : Store}
    (hcheck : (inner c.check).run e s = ((.ok check, e'), s')) (hany : check ≠ .any)
    (hsplit : c.distributive → check ≠ .never ∧ ∀ members, s'.node check ≠ .union members) :
    (Eval.conditional inner setting t c).run e s = (choose inner setting t c check).run e' s' := by
  have hnode : (liftM (Build.node check) : Eval Node).run e' s' = ((.ok (s'.node check), e'), s') := rfl
  have hnever : ¬((c.distributive && check = .never) = true) := by
    rw [Bool.and_eq_true, not_and]
    exact fun hd => by simpa using (hsplit hd).1
  rw [conditional, run_bind, hcheck]
  dsimp only
  rw [if_neg hany, if_neg hnever, run_bind, hnode]
  dsimp only
  split
  · rename_i members hd hn
    exact absurd hn ((hsplit hd).2 members)
  · rfl

/-- A conditional that is not split and binds no names. -/
theorem conditional_plain {inner : TypeId → Eval TypeId} {setting : Setting} {t check pattern : TypeId}
    {c : Conditional} {e : Evaluator} {s : Store} (hinfer : c.infer = []) (hany : check ≠ .any) :
    let x := (inner c.check).run e s
    let y := (inner c.pattern).run x.1.2 x.2
    let v := Check.subtypeAt ⟨inner, .fresh setting.options y.1.2.guard.depth none⟩
      setting.options.maxSubtypeDepth.toNat check pattern (.fresh setting.options) y.2
    x.1.1 = .ok check → y.1.1 = .ok pattern →
      (c.distributive → check ≠ .never ∧ ∀ members, x.2.node check ≠ .union members) →
      y.2.containsParams check = false → y.2.containsParamsExcept [] pattern = false →
      v.1.2.diagnostics = #[] → v.1.1 = true →
      (Eval.conditional inner setting t c).run e s =
        (do inner (← Build.instantiate .empty c.whenTrue) : Eval TypeId).run y.1.2 v.2 := by
  intro x y v hx hy hsplit hcheck hpattern hquiet htrue
  have hx' : (inner c.check).run e s = ((.ok check, x.1.2), x.2) := Prod.ext (Prod.ext hx rfl) rfl
  have hy' : (inner c.pattern).run x.1.2 x.2 = ((.ok pattern, y.1.2), y.2) :=
    Prod.ext (Prod.ext hy rfl) rfl
  have hstore : (getThe Store : Eval Store).run y.1.2 y.2 = ((.ok y.2, y.1.2), y.2) := rfl
  have hfit : (fit inner setting check pattern []).run y.1.2 y.2 =
      ((.ok (some .empty), y.1.2), v.2) := by
    have hrun : fit inner setting check pattern [] = (do
        if ← isAssignable inner setting check pattern then return some .empty else return none) := rfl
    rw [hrun, run_bind, isAssignable_plain hquiet]
    dsimp only
    rw [if_pos htrue]
    rfl
  rw [conditional_unsplit hx' hany hsplit, choose, run_bind, hy']
  dsimp only
  rw [run_bind, hstore]
  dsimp only
  rw [hinfer, hcheck, hpattern, if_neg (by simp), run_bind, hfit]

end Eval

namespace Setting

theorem normalize_fixed {site : Option SourceTag} {t : TypeId} (ht : t.isFixed) (s : Store) :
    Reporting.normalize site t #[] s = ((t, #[]), s) := by
  have hrun : Normal.normalizeAt Normal.maxDepth site t {} #[] s = (((t, {}), #[]), s) := by
    unfold Normal.normalizeAt
    rw [if_pos ht]
    rfl
  change (((Normal.normalizeAt Normal.maxDepth site t {} #[] s).1.1.1,
    (Normal.normalizeAt Normal.maxDepth site t {} #[] s).1.2),
    (Normal.normalizeAt Normal.maxDepth site t {} #[] s).2) = _
  rw [hrun]

/-- A request whose evaluation ends with a fixed type answers with that type. -/
theorem evaluate_of_fixed {setting : Setting} {patience : Option Nat} {t u : TypeId} {e : Evaluator}
    {s s' : Store} (hu : u.isFixed)
    (h : (Eval.evaluateAt setting setting.options.maxEvaluationDepth.toNat t).run
      (setting.evaluator patience) s = ((.ok u, e), s')) :
    setting.evaluate patience t s = (⟨.ok u, e.diagnostics⟩, s') := by
  have hreporting : ∀ site, (Eval.reporting (Reporting.normalize site u)).run e s' =
      ((.ok u, e), s') := by
    intro site
    have hnormal : (liftM ((Reporting.normalize site u).run #[]) :
        Eval (TypeId × Array Diagnostic)).run e s' = ((.ok (u, #[]), e), s') := by
      change ((Except.ok (Reporting.normalize site u #[] s').1, e),
        (Reporting.normalize site u #[] s').2) = _
      rw [normalize_fixed hu]
    unfold Eval.reporting
    rw [Eval.run_bind, hnormal]
    rfl
  have hrun : (Eval.evaluateNormalized setting t).run (setting.evaluator patience) s =
      ((.ok u, e), s') := by
    have hevaluate : (Eval.evaluate setting t).run (setting.evaluator patience) s = ((.ok u, e), s') := h
    have horigin : (Eval.origin? t).run e s' = ((.ok (s'.origin? (.type t)), e), s') := rfl
    unfold Eval.evaluateNormalized
    rw [Eval.run_bind, hevaluate]
    dsimp only
    rw [Eval.run_bind, horigin]
    exact hreporting _
  have houtcome : setting.evaluate patience t s =
      (⟨((Eval.evaluateNormalized setting t).run (setting.evaluator patience) s).1.1,
        ((Eval.evaluateNormalized setting t).run (setting.evaluator patience) s).1.2.diagnostics⟩,
        ((Eval.evaluateNormalized setting t).run (setting.evaluator patience) s).2) := rfl
  rw [houtcome, hrun]

end Setting

end TypeResolution
