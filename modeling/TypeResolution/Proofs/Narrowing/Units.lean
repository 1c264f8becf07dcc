import TypeResolution.Proofs.Narrowing.Joining

/-!
Unit types as discriminants. A unit type evaluates to itself, and different unit types are not
assignable to each other, so a member that has a unit type as the discriminant is kept as it is or
dropped.
-/

namespace TypeResolution

open Store

namespace Narrowing

variable {s s' : Store} {setting : Setting} {c k m : TypeId} {branch : Branch}

section checks

variable {nested : Check.Nested} {inner : Check.Inner}

/-- Whatever the checker has been through, the check fails. -/
def Fails (s : Store) (m : Check Bool) : Prop := ∀ x, (m x s).1.1 = false

theorem unit_nodes (hs : s.Formed) (h : isUnit s k) :
    (∃ v, s.node k = .literal v) ∨ s.node k = .intrinsic .null ∨
      s.node k = .intrinsic .undefined := by
  refine (isUnit_cases h).imp_right (Or.imp ?_ ?_)
  · rintro rfl
    exact hs.node_intrinsic .null
  · rintro rfl
    exact hs.node_intrinsic .undefined

theorem isMeta_of_isUnit (hs : s.Formed) (h : isUnit s k) : (s.node k).isMeta = false := by
  rcases unit_nodes hs h with ⟨v, hn⟩ | hn | hn <;> rw [hn] <;> rfl

/-- No unit type is one of the types that stand for many values. -/
theorem ne_of_isUnit (hs : s.Formed) (h : isUnit s k) {i : Intrinsic}
    (hi : i ≠ .null ∧ i ≠ .undefined) : k ≠ i.typeId := by
  rintro rfl
  rcases unit_nodes hs h with ⟨v, hn⟩ | hn | hn <;> cases (hs.node_intrinsic i).symm.trans hn
  · exact hi.1 rfl
  · exact hi.2 rfl

theorem isEmptyObject_of_isUnit (hs : s.Formed) (h : isUnit s k) : s.isEmptyObject k = false := by
  unfold isEmptyObject objectShape?
  rcases unit_nodes hs h with ⟨v, hn⟩ | hn | hn <;> rw [hn] <;> rfl

theorem fails_againstEmptyObject (hs : s.Formed) (hk : isUnit s k) :
    Fails s (Check.againstEmptyObject c k) := by
  intro x
  change ((if s.isEmptyObject k && !c.isNullish && c ≠ .unknown then pure true
    else Check.fail _ : Check Bool) x s).1.1 = false
  rw [if_neg (by simp [isEmptyObject_of_isUnit hs hk])]
  rfl

theorem fails_literal (hs : s.Formed) (hk : isUnit s k) (v : Literal) :
    Fails s (Check.literal c k v) := by
  intro x
  have hprimitive : v.primitive ≠ k := by
    cases v with
    | string _ => exact (ne_of_isUnit hs hk (i := .string) (by decide)).symm
    | number _ => exact (ne_of_isUnit hs hk (i := .number) (by decide)).symm
    | boolean _ => exact (ne_of_isUnit hs hk (i := .boolean) (by decide)).symm
  unfold Check.literal
  rw [if_neg hprimitive, get_bind]
  have hdescribed : ∀ {found : Bool}, found = false → ((if found then pure true
      else Check.againstEmptyObject c k : Check Bool) x s).1.1 = false := by
    rintro _ rfl
    exact fails_againstEmptyObject hs hk x
  refine hdescribed ?_
  rcases unit_nodes hs hk with ⟨w, hn⟩ | hn | hn <;> cases v <;> rw [hn]

theorem fails_shapes (hs : s.Formed) (hc : isUnit s c) (hk : isUnit s k) (n : Node) :
    Fails s (Check.shapes inner c k (s.node c) n) := by
  intro x
  have hvoid : k ≠ .void := ne_of_isUnit hs hk (i := .void) (by decide)
  rcases unit_nodes hs hc with ⟨v, hn⟩ | hn | hn <;> rw [hn]
  · exact fails_literal hs hk v x
  · exact fails_againstEmptyObject hs hk x
  · change ((if Intrinsic.undefined = .undefined && k = .void then pure true
      else Check.againstEmptyObject c k : Check Bool) x s).1.1 = false
    rw [if_neg (by simp [hvoid])]
    exact fails_againstEmptyObject hs hk x

theorem fails_rules (hs : s.Formed) (hc : isUnit s c) (hk : isUnit s k) :
    Fails s (Check.rules nested inner c k) := by
  intro x
  have herror : ∀ {u}, isUnit s u → u ≠ .error := by
    rintro _ hu rfl
    have hn : s.node .error = .error := hs.node_fixed (i := 0) (by decide)
    rcases unit_nodes hs hu with ⟨w, hn'⟩ | hn' | hn' <;> cases hn.symm.trans hn'
  have hany : k ≠ .any := ne_of_isUnit hs hk (i := .any) (by decide)
  have hunknown : k ≠ .unknown := ne_of_isUnit hs hk (i := .unknown) (by decide)
  have hnever : k ≠ .never := ne_of_isUnit hs hk (i := .never) (by decide)
  have hnever' : c ≠ .never := ne_of_isUnit hs hc (i := .never) (by decide)
  have hany' : c ≠ .any := ne_of_isUnit hs hc (i := .any) (by decide)
  have hbind : ∀ (f : TypeId → Check Bool) {u}, isUnit s u →
      (Check.resolve nested u >>= f) x s = f u x s := by
    intro f u hu
    change (match Check.resolve nested u x s with | ((a, y), s') => f a y s') = _
    rw [resolve_plain (isMeta_of_isUnit hs hu)]
  unfold Check.rules
  rw [if_neg (by simp [hany, hunknown, herror hk]), if_neg (by simp [hnever', herror hc]),
    if_neg hnever, if_neg hany', hbind _ hc, hbind _ hk, if_pos (by simp)]
  have hstructures : Check.structures inner c k x s =
      Check.shapes inner c k (s.node c) (s.node k) x s := by
    unfold Check.structures
    rw [node_bind, node_bind]
    rcases unit_nodes hs hc with ⟨v, hn⟩ | hn | hn <;>
      rcases unit_nodes hs hk with ⟨w, hn'⟩ | hn' | hn' <;> rw [hn, hn']
  rw [hstructures]
  exact fails_shapes hs hc hk _ x

/-- A checker that starts finds that different unit types are not assignable to each other. -/
theorem not_assignable_of_isUnit {o : Options} (hs : s.Formed) (hc : isUnit s c) (hk : isUnit s k)
    (hne : c ≠ k) : (Check.isAssignable nested c k (.fresh o) s).1.1 = false := by
  have hpair : ∀ check : Check.Inner, Fails s (check c k) →
      (Check.pair check c k (.fresh o) s).1.1 = false := by
    intro check hcheck
    rw [Assignability.pair_run_new hne (by simp [Checker.fresh])]
    have hcycle : ((Checker.fresh o).guard.enter (c, k)).1 ≠ .cycle := by
      unfold Recursion.Guard.enter
      dsimp only
      split
      · simp
      split
      · simp
      split
      · rename_i hactive
        exact absurd hactive List.not_mem_nil
      · simp
    cases henter : ((Checker.fresh o).guard.enter (c, k)).1 with
    | entered =>
        obtain ⟨failures, hrun, -⟩ := Assignability.work_run check c k
          { Checker.fresh o with guard := ((Checker.fresh o).guard.enter (c, k)).2 } s
        dsimp only
        rw [hrun]
        exact hcheck _
    | cycle => exact absurd henter hcycle
    | depthExceeded => rfl
    | iterationExceeded => rfl
  change (Check.subtypeAt nested (o.maxSubtypeDepth.toNat - 0) c k (.fresh o) s).1.1 = false
  cases o.maxSubtypeDepth.toNat - 0 with
  | zero => exact hpair _ fun _ => rfl
  | succ n => exact hpair _ (fails_rules hs hc hk)

theorem reporting_isAssignable_unit (hc : isUnit s c) (hk : isUnit s k) (hne : c ≠ k) :
    reporting.Holds s (isAssignable setting c k) fun _ found => found = false := by
  refine reporting.formed fun hs ds _ => ?_
  have hrun : reporting.Holds s (isAssignable setting c k) _ :=
    reporting_isAssignable (concrete_of_isUnit hs hc) (concrete_of_isUnit hs hk)
  obtain ⟨hgrows, hformed, -⟩ := hrun ds hs
  refine ⟨hgrows, hformed, ?_⟩
  let options : Options := { setting.options with excessPropertyCheck := false }
  change ((fun r : (Bool × Checker) × Store => ((do
      r.1.2.diagnostics.forM fun d => modify fun ds => if ds.contains d then ds else ds.push d
      return r.1.1 : Reporting Bool) ds r.2).1.1)
    (Check.isAssignable (Setting.nested { setting with options := options } 0) c k
      (.fresh options) s)) = false
  exact not_assignable_of_isUnit hs hc hk hne

end checks

section members

theorem guarded_literal {work : TypeId → Node → Eval TypeId} {v : Literal} {e : Evaluator}
    (hn : s.node c = .literal v) (hwork : work c (.literal v) = pure c)
    (hpatience : e.patience = none) (hcache : e.cache[c]? = none) :
    ∃ e', (Eval.guarded work setting c).run e s = ((.ok c, e'), s) := by
  by_cases hfixed : c.isFixed
  · exact ⟨e, Eval.guarded_fixed hfixed e s⟩
  have hget : (get : Eval Evaluator).run e s = ((.ok e, e), s) := rfl
  unfold Eval.guarded
  rw [if_neg hfixed, Eval.run_bind, Eval.poll_run, hpatience]
  dsimp only
  rw [Eval.run_bind, hget]
  dsimp only
  rw [hcache]
  dsimp only
  rw [Eval.run_bind, hget]
  dsimp only
  split
  · exact ⟨e, rfl⟩
  have henter : (Eval.enter c).run e s =
      ((.ok (e.guard.enter c).1, { e with guard := (e.guard.enter c).2 }), s) := rfl
  have hexceeded : ∀ e₁, ∃ e', (do
      Eval.reportDepthExceeded c
      return c : Eval TypeId).run e₁ s = ((.ok c, e'), s) := by
    intro e₁
    obtain ⟨_, _, _, _, hrun⟩ := Eval.reports_reportDepthExceeded c e₁ s
    rw [Eval.run_bind, hrun]
    exact ⟨_, rfl⟩
  rw [Eval.run_bind, henter]
  dsimp only
  cases (e.guard.enter c).1 with
  | entered =>
      obtain ⟨e', hrun⟩ : ∃ e', Eval.finish c ((pure c : Eval TypeId).run
          { e with guard := (e.guard.enter c).2 } s) = ((.ok c, e'), s) := ⟨_, rfl⟩
      refine ⟨e', (Eval.entered_run work c _ s).trans ?_⟩
      rw [hn, hwork, hrun]
  | cycle =>
      have hread : ∀ (f : Node → Eval TypeId) (e₁ : Evaluator),
          ((Build.node c : Eval Node) >>= f).run e₁ s = (f (s.node c)).run e₁ s := fun _ _ => rfl
      refine ⟨{ e with guard := (e.guard.enter c).2 }, ?_⟩
      dsimp only
      unfold Eval.reenterCycle
      rw [hread, hn]
      rfl
  | depthExceeded => exact hexceeded _
  | iterationExceeded => exact hexceeded _

/-- A unit type evaluates to itself, whatever the limits. -/
theorem evaluate_unit (setting : Setting) (hc : isUnit s c) :
    ∃ e, Eval.evaluate setting c (.fresh setting.options 0 none) s = ((.ok c, e), s) := by
  by_cases hfixed : c.isFixed
  · exact ⟨_, Eval.evaluateAt_fixed hfixed _ _ s⟩
  obtain ⟨v, hn⟩ : ∃ v, s.node c = .literal v := by
    rcases isUnit_cases hc with h | rfl | rfl
    · exact h
    · exact absurd rfl hfixed
    · exact absurd rfl hfixed
  have hat : ∀ depth e, e.patience = none → e.cache[c]? = none →
      ∃ e', (Eval.evaluateAt setting depth c).run e s = ((.ok c, e'), s) := by
    intro depth e hpatience hcache
    cases depth with
    | zero => exact guarded_literal hn rfl hpatience hcache
    | succ depth => exact guarded_literal hn rfl hpatience hcache
  exact hat _ _ rfl Std.HashMap.getElem?_empty

theorem reporting_resolve_unit (hc : isUnit s c) :
    reporting.Holds s (resolve setting c) fun _ u => u = c := by
  refine reporting.formed fun hs => ?_
  unfold resolve
  split
  · exact reporting.pure rfl
  obtain ⟨e, hrun⟩ := evaluate_unit setting hc
  have hevaluated : building.Holds s (Eval.evaluate setting c (.fresh setting.options 0 none))
      fun _ p => p.1 = .ok c := by
    intro hs
    rw [hrun]
    exact ⟨.refl s, hs, rfl⟩
  refine reporting.bind (reporting_lift hevaluated) ?_
  rintro s₁ ⟨_, e'⟩ _ _ rfl
  refine reporting.bind (reporting_forM (fun d _ => reporting_report d) e'.diagnostics) ?_
  exact fun _ _ _ _ _ => reporting.pure rfl

/-- A unit type agrees with the branch of a unit type if it is that very type. -/
theorem reporting_agrees_unit (hc : isUnit s c) (hk : isUnit s k) :
    reporting.Holds s (agrees setting c branch k) fun _ b =>
      b = (decide (k = c) == branch.isTrue) := by
  unfold agrees
  split
  · rename_i hbranch
    exact reporting.pure (by simp_all)
  rename_i hbranch
  split
  · exact reporting.pure (by simp_all)
  rename_i hne
  refine reporting.formed fun hs => ?_
  refine reporting.bind (reporting_isAssignable_unit hc hk (Ne.symm hne)) ?_
  rintro s₁ _ h₁ _ rfl
  rw [if_neg (by simp)]
  have hk₁ := isUnit_mono hs h₁ hk
  refine reporting.mono (reporting_isAssignable_unit hk₁ (isUnit_mono hs h₁ hc) hne) ?_
  rintro s₂ _ _ _ rfl
  simp_all

theorem filterM_singleton {M : Type → Type} [Monad M] [LawfulMonad M] {α : Type}
    (p : α → M Bool) (a : α) : [a].filterM p = p a >>= fun b => pure (if b then [a] else []) := by
  simp only [List.filterM, List.filterAuxM, bind_assoc, pure_bind]
  refine bind_congr fun b => ?_
  cases b <;> rfl

/-- A member with a unit type as the discriminant is kept as it is or dropped. -/
theorem reporting_discriminate_unit {property : String} {o : ObjectShape} {f : Field}
    (hn : s.node m = .object o) (hf : o.find? property = some f) (hc : isUnit s c)
    (hk : isUnit s f.type) :
    reporting.Holds s (discriminate setting property c branch m) fun _ kept =>
      kept = if decide (f.type = c) == branch.isTrue then some m else none := by
  refine reporting_store fun hs => ?_
  rw [show s.objectShape? m = some o by rw [objectShape?, hn]]
  simp only [Option.bind_some, hf]
  refine reporting.bind (reporting_resolve_unit hk) ?_
  rintro s₁ _ h₁ hs₁ rfl
  have hk₁ := isUnit_mono hs h₁ hk
  refine reporting_store fun _ => ?_
  have hmembers : s₁.unionMembers f.type = [f.type] := by
    refine unionMembers_of_not_union ?_
    unfold unionMembers?
    rcases unit_nodes hs₁ hk₁ with ⟨v, hn⟩ | hn | hn <;> rw [hn] <;> rfl
  rw [hmembers, filterM_singleton]
  rw [bind_assoc]
  refine reporting.bind (reporting_agrees_unit (isUnit_mono hs h₁ hc) hk₁) ?_
  rintro s₂ _ _ _ rfl
  rw [pure_bind]
  split
  · exact reporting.pure rfl
  · exact reporting.pure rfl

end members

end Narrowing

end TypeResolution
