import TypeResolution.Proofs.Evaluated.Runs
import TypeResolution.Proofs.Evaluation.Working
import TypeResolution.Proofs.Tidy.Reachable

/-!
Without aliases evaluation is idempotent. The second evaluation may have to go deeper than the first
one, which remembers what it has met before, and may then hit a limit that the first one did not.
-/

namespace TypeResolution

open Store Eval

/-- Without aliases, what an evaluation gives that hits no limit is evaluated: another evaluation gives
it as it is, whatever its setting, makes no type, and reports nothing unless it hits a limit itself,
and then nothing else. -/
theorem Context.evaluate_again {o : Options} {s s' : Store} {t r : TypeId} {e : Evaluator}
    {patience : Option Nat} (hs : s.Formed) (htidy : s.Tidy) (ht : s.Closed AnyName t)
    (hrun : Eval.evaluate ⟨.empty, o⟩ t (.fresh o 0 patience) s = ((.ok r, e), s'))
    (hlimits : e.WithinLimits s') (setting : Setting) :
    ∃ e', Eval.evaluate setting r (.fresh setting.options 0 none) s' = ((.ok r, e'), s') ∧
      (e'.guard.exceeded ∨ e'.diagnostics = #[]) ∧
        ∀ d ∈ e'.diagnostics, d.kind = .evaluationDepthExceeded := by
  have hr : Evaluated s' r := (evaluate_evaluated hs ht hrun htidy hlimits).1
  have hs' : s'.Formed := by
    have hsettles := settles_evaluate (o := o) hs ht patience
    rw [hrun] at hsettles
    exact hsettles.formed
  have hrestores : Restores (.stopped {}) (Eval.evaluate setting r) _ := restores_evaluate r
  obtain ⟨u, e', s₁, hagain⟩ :=
    hrestores.done (e := .fresh setting.options 0 none) (s := s') (Nat.le_refl _) rfl
  obtain ⟨rfl, rfl, -, hpasses⟩ :=
    hr.finds_evaluate hs' _ (.fresh setting.options none s') u e' s₁ hagain
  refine ⟨e', hagain, hpasses.silent, fun d hd => (hpasses.limits d hd).resolve_left ?_⟩
  exact Array.not_mem_empty d

namespace Context

/-- `V extends V ? V[][] : never`, where `V` is `string[][]`. -/
def deepening : TypeExpr :=
  let checked := TypeExpr.array (.array .string)
  .of (.conditional checked checked [] (.array (.array checked)) (.intrinsic .never) none)

def deepeningStore : Store := (deepening.lower [] 0 .empty).2

theorem deepening_eq : (deepening.lower [] 0 .empty).1.1 = ⟨16⟩ ∧ deepeningStore.size = 17 := by
  refine ⟨?_, ?_⟩ <;> cbv

theorem deepening_nodes : deepeningStore.node ⟨12⟩ = .array .string ∧
    deepeningStore.node ⟨13⟩ = .array ⟨12⟩ ∧ deepeningStore.node ⟨14⟩ = .array ⟨13⟩ ∧
    deepeningStore.node ⟨15⟩ = .array ⟨14⟩ ∧
    deepeningStore.node ⟨16⟩ = .conditional ⟨⟨13⟩, ⟨13⟩, [], ⟨15⟩, .never, false⟩ := by
  refine ⟨?_, ?_, ?_, ?_, ?_⟩ <;> cbv

/-- Three nested evaluations, and otherwise the default. -/
def threeDeep : Options := { Options.standard with maxEvaluationDepth := 3 }

/-- What is remembered when the checked type has been evaluated, and when the branch has. -/
def checkedCache : Std.HashMap TypeId TypeId :=
  ((∅ : Std.HashMap TypeId TypeId).insert ⟨12⟩ ⟨12⟩).insert ⟨13⟩ ⟨13⟩

def branchCache : Std.HashMap TypeId TypeId := (checkedCache.insert ⟨14⟩ ⟨14⟩).insert ⟨15⟩ ⟨15⟩

theorem formed_and_tidy_deepening : deepeningStore.Formed ∧ deepeningStore.Tidy := by
  have hscope : Store.empty.Knows ([] : TypeScope) := by
    rintro t ⟨b, hb, -⟩
    cases hb
  exact formed_and_tidy_of_reachable ⟨.byAge, .single (.lower _ 0 hscope)⟩

theorem deepening_checked {setting : Setting} :
    evaluateAt setting 2 ⟨13⟩ (working threeDeep [⟨16⟩] 1 0 ∅) deepeningStore =
      ((.ok ⟨13⟩, working threeDeep [⟨16⟩] 3 0 checkedCache), deepeningStore) := by
  obtain ⟨hs, -⟩ := formed_and_tidy_deepening
  obtain ⟨h12, h13, -, -, -⟩ := deepening_nodes
  have hsize := deepening_eq.2
  exact evaluateAt_array hs (by rw [hsize]; decide) h13 (by decide) (by simp) (by decide) (by decide)
    (evaluateAt_array hs (by rw [hsize]; decide) h12 (by decide) (by simp) (by decide) (by decide)
      (evaluateAt_fixed rfl 0 _ _))

theorem deepening_branch {setting : Setting} :
    evaluateAt setting 2 ⟨15⟩ (working threeDeep [⟨16⟩] 3 0 checkedCache) deepeningStore =
      ((.ok ⟨15⟩, working threeDeep [⟨16⟩] 5 0 branchCache), deepeningStore) := by
  obtain ⟨hs, -⟩ := formed_and_tidy_deepening
  obtain ⟨-, -, h14, h15, -⟩ := deepening_nodes
  have hsize := deepening_eq.2
  exact evaluateAt_array hs (by rw [hsize]; decide) h15 (by decide) (by simp [checkedCache]) (by decide)
    (by decide) (evaluateAt_array hs (by rw [hsize]; decide) h14 (by decide) (by simp [checkedCache])
      (by decide) (by decide) (evaluateAt_known rfl rfl (by simp [checkedCache, working])))

theorem deepening_closed : deepeningStore.containsParams ⟨13⟩ = false ∧
    deepeningStore.containsParamsExcept [] ⟨13⟩ = false := by
  refine ⟨?_, ?_⟩ <;> cbv

/-- The branch is entered where the checked type is remembered. -/
theorem deepening_run :
    Eval.evaluate ⟨.empty, threeDeep⟩ ⟨16⟩ (.fresh threeDeep 0 none) deepeningStore =
      ((.ok ⟨15⟩, working threeDeep [] 5 0 (branchCache.insert ⟨16⟩ ⟨15⟩)), deepeningStore) := by
  obtain ⟨-, -, -, -, h16⟩ := deepening_nodes
  obtain ⟨hcheck, hpattern⟩ := deepening_closed
  have hagain : evaluateAt ⟨.empty, threeDeep⟩ 2 ⟨13⟩ (working threeDeep [⟨16⟩] 3 0 checkedCache)
      deepeningStore = ((.ok ⟨13⟩, working threeDeep [⟨16⟩] 3 0 checkedCache), deepeningStore) :=
    evaluateAt_known rfl rfl (by simp [checkedCache, working])
  have hnode : node (evaluateAt ⟨.empty, threeDeep⟩ 2) ⟨.empty, threeDeep⟩ ⟨16⟩
      (deepeningStore.node ⟨16⟩) (working threeDeep [⟨16⟩] (0 + 1) 0 ∅) deepeningStore =
        ((.ok ⟨15⟩, working threeDeep [⟨16⟩] 5 0 branchCache), deepeningStore) := by
    rw [h16]
    exact conditional_self rfl (by decide) (by simp) deepening_checked hagain hcheck hpattern
      deepening_branch
  have hdepth : threeDeep.maxEvaluationDepth.toNat = 2 + 1 := by decide
  rw [evaluate_start, hdepth]
  exact evaluateAt_entered rfl (by simp) (by simp) (by decide) (by decide) hnode

theorem deepening_within : ∃ e, Eval.evaluate ⟨.empty, threeDeep⟩ ⟨16⟩ (.fresh threeDeep 0 none)
    deepeningStore = ((.ok ⟨15⟩, e), deepeningStore) ∧ e.WithinLimits deepeningStore := by
  obtain ⟨hs, -⟩ := formed_and_tidy_deepening
  have hsize := deepening_eq.2
  have ht : deepeningStore.Closed AnyName ⟨16⟩ := hs.closed_of_known (by rw [hsize]; decide)
  exact ⟨_, deepening_run, withinLimits_of_size hs ht deepening_run (by simp [working, Evaluator.fresh])
    (by rw [hsize]; decide)⟩

/-- An evaluation of the result anew reaches the limit. -/
theorem deepening_again : ∃ e, Eval.evaluate ⟨.empty, threeDeep⟩ ⟨15⟩ (.fresh threeDeep 0 none)
    deepeningStore = ((.ok ⟨15⟩, e), deepeningStore) ∧ e.guard.exceeded := by
  obtain ⟨hs, -⟩ := formed_and_tidy_deepening
  obtain ⟨h12, h13, h14, h15, -⟩ := deepening_nodes
  have hsize := deepening_eq.2
  have hinner : ∃ e, evaluateAt ⟨.empty, threeDeep⟩ 0 ⟨12⟩ (working threeDeep [⟨13⟩, ⟨14⟩, ⟨15⟩] 3 3 ∅)
      deepeningStore = ((.ok ⟨12⟩, e), deepeningStore) ∧ e.guard.exceeded :=
    exceeded_of_depth rfl (by decide) (by simp) (by decide)
  exact exceeded_of_element hs (by rw [hsize]; decide) h15 (by decide) (by simp) (by decide) (by decide)
    (exceeded_of_element hs (by rw [hsize]; decide) h14 (by decide) (by simp) (by decide) (by decide)
      (exceeded_of_element hs (by rw [hsize]; decide) h13 (by decide) (by simp) (by decide) (by decide)
        hinner))

theorem evaluate_again_deepening :
    ∃ e, Eval.evaluate ⟨.empty, threeDeep⟩ ⟨16⟩ (.fresh threeDeep 0 none) deepeningStore =
      ((.ok ⟨15⟩, e), deepeningStore) ∧ e.WithinLimits deepeningStore ∧
      ∃ e', Eval.evaluate ⟨.empty, threeDeep⟩ ⟨15⟩ (.fresh threeDeep 0 none) deepeningStore =
        ((.ok ⟨15⟩, e'), deepeningStore) ∧ (e'.guard.exceeded ∨ e'.diagnostics = #[]) ∧
          ∀ d ∈ e'.diagnostics, d.kind = .evaluationDepthExceeded := by
  obtain ⟨hs, htidy⟩ := formed_and_tidy_deepening
  obtain ⟨e, hrun, hlimits⟩ := deepening_within
  have ht : deepeningStore.Closed AnyName ⟨16⟩ :=
    hs.closed_of_known (by rw [deepening_eq.2]; decide)
  exact ⟨e, hrun, hlimits, evaluate_again hs htidy ht hrun hlimits ⟨.empty, threeDeep⟩⟩

/-- The first evaluation of `V extends V ? V[][] : never` hits no limit, but an evaluation of what it
gives does. -/
theorem evaluate_again_reports :
    let x := deepening.lower [] 0 .empty
    ∃ r e s', Eval.evaluate ⟨.empty, threeDeep⟩ x.1.1 (.fresh threeDeep 0 none) x.2 = ((.ok r, e), s') ∧
      e.WithinLimits s' ∧ ∃ e', Eval.evaluate ⟨.empty, threeDeep⟩ r (.fresh threeDeep 0 none) s' =
        ((.ok r, e'), s') ∧ ∃ d ∈ e'.diagnostics, d.kind = .evaluationDepthExceeded := by
  intro x
  have hx : x.1.1 = ⟨16⟩ := deepening_eq.1
  obtain ⟨hs, -⟩ := formed_and_tidy_deepening
  obtain ⟨e, hrun, hlimits⟩ := deepening_within
  obtain ⟨e', hagain, hexceeded⟩ := deepening_again
  have hr : deepeningStore.Closed AnyName ⟨15⟩ := hs.closed_of_known (by rw [deepening_eq.2]; decide)
  have hsettles := settles_evaluate (o := threeDeep) hs hr none
  rw [hagain] at hsettles
  rw [hx]
  exact ⟨_, e, _, hrun, hlimits, e', hagain, hsettles.fit.told (.inl hexceeded)⟩

end Context

end TypeResolution
