import Mathlib
import TypeResolution.Proofs.Replay.Lowering
import TypeResolution.Proofs.Replay.Requests
import TypeResolution.Proofs.Tidy.Evaluation

/-!
Stores that arise from the empty one by lowering expressions and by the operations on types. In all
of them no type reaches itself through its components, and all nodes are tidy.
-/

namespace TypeResolution

/-- The types that a value names. -/
class Names (α : Type) where
  names : α → TypeId → Prop

export Names (names)

instance : Names TypeId := ⟨Eq⟩

instance {α : Type} [Names α] : Names (List α) := ⟨fun l t => ∃ a ∈ l, names a t⟩

instance : Names (String × TypeId) := ⟨fun b t => b.2 = t⟩

instance : Names TypeParam := ⟨fun p t => t ∈ (Node.param p).components⟩

instance : Names Alias := ⟨fun a t => a.body = t ∨ names a.params t⟩

instance : Names Environment := ⟨fun env t => names env.aliases t⟩

instance : Names Substitution := ⟨fun σ t => names σ.bindings t⟩

instance : Names Conditional := ⟨fun c t => t ∈ (Node.conditional c).components⟩

instance : Names Mapped := ⟨fun m t => t ∈ (Node.mapped m).components⟩

instance : Names TypeGuard where
  names
    | .literalEquality value, t | .discriminant _ value, t | .predicate value, t => value = t
    | _, _ => False

instance : Names Inference.Pool := ⟨fun pool t => t ∈ pool.candidates⟩

instance : Names (Std.HashMap TypeId TypeId) := ⟨fun cache t => ∃ u : TypeId, cache[u]? = some t⟩

instance : Names Evaluator := ⟨fun e t => names e.cache t⟩

namespace Store

/-- The types that a value names are in the store. -/
def Knows (s : Store) {α : Type} [Names α] (a : α) : Prop := ∀ t, names a t → t.index < s.size

/-- One operation on a store, of values whose types it knows. Evaluators, checkers, normalizers
and inferences may have been used before. -/
inductive Step (s : Store) : Store → Prop
  | lower (e : TypeExpr) {scope : TypeScope} (count : Nat) (hscope : s.Knows scope) :
      Step s (e.lower scope count s).2
  | bindParams (params : List ParamExpr) {scope : TypeScope} (count : Nat)
      (hscope : s.Knows scope) : Step s (Lowering.bindParams params scope count s).2
  | lowerAlias (a : AliasExpr) {scope : TypeScope} (count : Nat) (hscope : s.Knows scope) :
      Step s (a.lower scope count s).2
  | union {members : List TypeId} (hmembers : s.Knows members) : Step s (Build.union members s).2
  | intersection (site : Option SourceTag) (ds : Array Diagnostic) {members : List TypeId}
      (hmembers : s.Knows members) : Step s (Reporting.intersection site members ds s).2
  | normalize (site : Option SourceTag) (ds : Array Diagnostic) {t : TypeId}
      {cache : Std.HashMap TypeId TypeId} (ht : s.Knows t) (hcache : s.Knows cache) :
      Step s (Normal.normalizeAt Normal.maxDepth site t cache ds s).2
  | instantiate {σ : Substitution} {t : TypeId} (hσ : s.Knows σ) (ht : s.Knows t) :
      Step s (Build.instantiate σ t s).2
  | evaluate {env : Environment} (options : Options) {t : TypeId} {e : Evaluator}
      (henv : s.Knows env) (ht : s.Knows t) (he : s.Knows e) :
      Step s (Eval.evaluate ⟨env, options⟩ t e s).2
  | evaluateNormalized {env : Environment} (options : Options) {t : TypeId} {e : Evaluator}
      (henv : s.Knows env) (ht : s.Knows t) (he : s.Knows e) :
      Step s (Eval.evaluateNormalized ⟨env, options⟩ t e s).2
  | evaluateConditional {env : Environment} (options : Options) {c : Conditional}
      {σ : Substitution} {e : Evaluator} (henv : s.Knows env) (hc : s.Knows c) (hσ : s.Knows σ)
      (he : s.Knows e) : Step s (Eval.evaluateConditional ⟨env, options⟩ c σ e s).2
  | evaluateMapped {env : Environment} (options : Options) {m : Mapped} {σ : Substitution}
      {e : Evaluator} (henv : s.Knows env) (hm : s.Knows m) (hσ : s.Knows σ) (he : s.Knows e) :
      Step s (Eval.evaluateMapped ⟨env, options⟩ m σ e s).2
  | infer {p : Inference.Problem} (strict : Bool) {target source : TypeId}
      {pools : List Inference.Pool} (henv : s.Knows p.environment) (htarget : s.Knows target)
      (hsource : s.Knows source) (hpools : s.Knows pools) :
      Step s (Inference.inferFrom p strict target source pools s).2
  | solve (strict : Bool) (name : String) {pools : List Inference.Pool} (hpools : s.Knows pools) :
      Step s (Inference.solve strict name pools s).2
  | unify {env : Environment} (preserveLiterals : Bool) (typeParams : List TypeParam)
      {params args : List TypeId} (henv : s.Knows env) (hparams : s.Knows params)
      (hargs : s.Knows args) :
      Step s (Inference.unify env preserveLiterals typeParams params args s).2
  | typeArguments {env : Environment} (preserveLiterals : Bool) {typeParams : List TypeParam}
      {params args : List TypeId} (ds : Array Diagnostic) (henv : s.Knows env)
      (htypeParams : s.Knows typeParams) (hparams : s.Knows params) (hargs : s.Knows args) :
      Step s (Inference.typeArguments env preserveLiterals typeParams params args ds s).2
  | matchPattern {env : Environment} (preserveLiterals : Bool) {source pattern : TypeId}
      (names : List String) (henv : s.Knows env) (hsource : s.Knows source)
      (hpattern : s.Knows pattern) :
      Step s (Inference.matchPattern env preserveLiterals source pattern names s).2
  | narrow {env : Environment} (options : Options) {t : TypeId} {guard : TypeGuard}
      (branch : Branch) (ds : Array Diagnostic) (henv : s.Knows env) (ht : s.Knows t)
      (hguard : s.Knows guard) : Step s (Narrowing.narrow ⟨env, options⟩ t guard branch ds s).2
  | discriminants {env : Environment} (options : Options) {t : TypeId} (ds : Array Diagnostic)
      (henv : s.Knows env) (ht : s.Knows t) :
      Step s (Narrowing.discriminants ⟨env, options⟩ t ds s).2
  | isAssignable {env : Environment} (options : Options) (depth : Nat) {source target : TypeId}
      (c : Checker) (henv : s.Knows env) (hsource : s.Knows source) (htarget : s.Knows target) :
      Step s (Check.isAssignable (Setting.nested ⟨env, options⟩ depth) source target c s).2
  | checkAssignable {env : Environment} (options : Options) (depth : Nat) {source target : TypeId}
      (c : Checker) (henv : s.Knows env) (hsource : s.Knows source) (htarget : s.Knows target) :
      Step s (Check.checkAssignable (Setting.nested ⟨env, options⟩ depth) source target c s).2

/-- A store after any number of operations on a fresh one. -/
def Reachable (s : Store) : Prop := ∃ numbers, Relation.ReflTransGen Step (fresh numbers) s

section knows

open Replay

variable {s : Store} {α : Type} [Names α] {t : TypeId} (hs : s.Formed)

include hs

theorem Formed.closed_of_knows (h : s.Knows t) : s.Closed AnyName t := hs.closed_of_known (h t rfl)

theorem Formed.closed_of_mem {ts : List TypeId} (h : s.Knows ts) : ∀ t ∈ ts, s.Closed AnyName t :=
  fun t ht => hs.closed_of_known (h t ⟨t, ht, rfl⟩)

theorem Formed.ok_scope {scope : TypeScope} (h : s.Knows scope) : Ok AnyName s scope :=
  fun b hb => hs.closed_of_known (h b.2 ⟨b, hb, rfl⟩)

theorem Formed.ok_substitution {σ : Substitution} (h : s.Knows σ) : Ok AnyName s σ :=
  fun b hb => hs.closed_of_known (h b.2 ⟨b, hb, rfl⟩)

theorem Formed.ok_cache {cache : Std.HashMap TypeId TypeId} (h : s.Knows cache) :
    ∀ u t : TypeId, cache[u]? = some t → s.Closed AnyName t :=
  fun u t ht => hs.closed_of_known (h t ⟨u, ht⟩)

theorem Formed.ok_pools {pools : List Inference.Pool} (h : s.Knows pools) : Ok AnyName s pools :=
  fun pool hpool t ht => hs.closed_of_known (h t ⟨pool, hpool, ht⟩)

theorem Formed.ok_guard {guard : TypeGuard} (h : s.Knows guard) : Ok AnyName s guard := by
  cases guard with
  | literalEquality value | discriminant property value | predicate value =>
      exact hs.closed_of_known (h value rfl)
  | _ => trivial

theorem Formed.ok_typeParam {p : TypeParam} (h : s.Knows p) :
    Ok AnyName s p.constraint ∧ Ok AnyName s p.default := by
  refine ⟨fun t ht => ?_, fun t ht => ?_⟩
  · exact hs.closed_of_known (h t (List.mem_append_left _ (Option.mem_toList.mpr ht)))
  · exact hs.closed_of_known (h t (List.mem_append_right _ (Option.mem_toList.mpr ht)))

theorem Formed.closed_components {n : Node} (hn : ∀ name args, n ≠ .reference name args)
    (h : ∀ t ∈ n.components, t.index < s.size) : n.Closed AnyName s :=
  ⟨fun name args e => absurd e (hn name args), fun t ht => hs.closed_of_known (h t ht)⟩

theorem Formed.agrees {env : Environment} (h : s.Knows env) : env.Agrees AnyName s env := by
  have hmem : ∀ name a, env.get? name = some a → a ∈ env.aliases :=
    fun name a ha => List.mem_of_find?_eq_some ha
  refine ⟨fun _ _ => rfl, fun name a _ ha => ?_, fun name a _ ha p hp t ht => ?_⟩
  · exact hs.closed_of_known (h a.body ⟨a, hmem name a ha, .inl rfl⟩)
  · refine hs.closed_of_known (h t ⟨a, hmem name a ha, .inr ⟨p, hp, ?_⟩⟩)
    exact List.mem_append_right _ (Option.mem_toList.mpr ht)

theorem Formed.same_evaluator {e : Evaluator} (h : s.Knows e) :
    Replay.Same (Link.free AnyName) s e e :=
  EvaluatorSame.refl (hs.ok_cache h) False.elim

end knows

section step

open Replay TypeResolution.Tidy

variable {s s' : Store}

/-- Looking for discriminants adds what resolving the union adds. -/
theorem discriminants_store (setting : Setting) (t : TypeId) (ds : Array Diagnostic) (s : Store) :
    (Narrowing.discriminants setting t ds s).2 = (Narrowing.resolve setting t ds s).2 := by
  unfold Narrowing.discriminants
  simp only [bind, StateT.bind]
  obtain ⟨⟨u, ds₁⟩, s₁⟩ := Narrowing.resolve setting t ds s
  have hget : (getThe Store : Reporting Store) ds₁ s₁ = ((s₁, ds₁), s₁) := rfl
  simp only [hget]
  cases s₁.node u with
  | union members =>
      dsimp only
      rcases List.mapM (fun m => (s₁.objectShape? m).map (m, ·)) members with _ | (_ | ⟨_, _ | _⟩)
        <;> rfl
  | _ => rfl

theorem Step.formed (h : Step s s') (hs : s.Formed) : s'.Formed := by
  have hall : ∀ name, (Link.free AnyName).names name := fun _ => trivial
  have hclosed {t : TypeId} (h : s.Knows t) : s.Closed (Link.free AnyName).names t :=
    hs.closed_of_knows h
  have hmem {ts : List TypeId} (h : s.Knows ts) : ∀ t ∈ ts, s.Closed (Link.free AnyName).names t :=
    hs.closed_of_mem h
  have hagrees {env : Environment} (h : s.Knows env) :
      Agree (Link.free AnyName) s env env := .of_agrees (hs.agrees h)
  have hpools {pools : List Inference.Pool} (h : s.Knows pools) :
      Ok (Link.free AnyName).names s pools := hs.ok_pools h
  cases h with
  | lower e count hscope =>
      exact (follows_lower hall e (hs.ok_scope hscope) count count ⟨rfl, trivial⟩ hs).formed
  | bindParams params count hscope =>
      exact (follows_bindParams hall params (hs.ok_scope hscope) count count ⟨rfl, trivial⟩
        hs).formed
  | lowerAlias a count hscope =>
      exact (follows_lowerAlias hall a (hs.ok_scope hscope) count count ⟨rfl, trivial⟩ hs).formed
  | union hmembers => exact (follows_union (hmem hmembers) hs).formed
  | intersection site ds hmembers =>
      have hrun : Follows (Link.free AnyName) s (Reporting.intersection site _)
          (Reporting.intersection site _) := follows_intersection (fun _ => rfl) (hmem hmembers)
      exact (hrun ds ds (fun _ => rfl) hs).formed
  | normalize site ds ht hcache =>
      have hrun : Follows (Link.free AnyName) s (Normal.normalizeAt Normal.maxDepth site _)
          (Normal.normalizeAt Normal.maxDepth site _) := follows_normalizeAt (fun _ => rfl) (hclosed ht)
      exact (hrun _ _ (.refl (hs.ok_cache hcache)) ds ds (fun _ => rfl) hs).formed
  | instantiate hσ ht => exact (follows_instantiate (hs.ok_substitution hσ) (hclosed ht) hs).formed
  | evaluate options henv ht he =>
      exact (follows_evalEvaluate options (hagrees henv) (hclosed ht) _ _ (hs.same_evaluator he)
        hs).formed
  | evaluateNormalized options henv ht he =>
      exact (follows_evaluateNormalized (hagrees henv) (hclosed ht) _ _ (hs.same_evaluator he)
        hs).formed
  | evaluateConditional options henv hc hσ he =>
      exact (follows_evaluateConditional options (hagrees henv)
        (hs.closed_components (by simp) hc) (hs.ok_substitution hσ) _ _ (hs.same_evaluator he)
        hs).formed
  | evaluateMapped options henv hm hσ he =>
      exact (follows_evaluateMapped options (hagrees henv) (hs.closed_components (by simp) hm)
        (hs.ok_substitution hσ) _ _ (hs.same_evaluator he) hs).formed
  | infer strict henv htarget hsource known =>
      exact (walks_inferAt (hagrees henv) _ [] s (.refl s) strict _ _ (hclosed htarget)
        (hclosed hsource) _ _ ⟨rfl, hpools known⟩ hs).formed
  | solve strict name known => exact (follows_solve strict name (hpools known) hs).formed
  | unify literals typeParams henv hparams hargs =>
      exact (follows_unify literals (hagrees henv) typeParams (hmem hparams) (hmem hargs) hs).formed
  | typeArguments literals ds henv htypeParams hparams hargs =>
      have hok : ∀ p ∈ _, _ := fun p hp => hs.ok_typeParam fun t ht => htypeParams t ⟨p, hp, ht⟩
      exact (follows_typeArguments literals (hagrees henv) hok (hmem hparams) (hmem hargs) ds ds
        (fun _ => rfl) hs).formed
  | matchPattern literals names henv hsource hpattern =>
      exact (follows_matchPattern (hagrees henv) (hclosed hsource) (hclosed hpattern) hs).formed
  | narrow options branch ds henv ht hguard =>
      exact (follows_narrow (hagrees henv) (hs.ok_guard hguard) (hclosed ht) ds ds (fun _ => rfl) hs).formed
  | discriminants options ds henv ht =>
      rw [discriminants_store]
      exact (follows_narrowingResolve (hagrees henv) (hclosed ht) ds ds (fun _ => rfl) hs).formed
  | isAssignable options depth c henv hsource htarget =>
      exact (follows_checkIsAssignable (resolves_setting options (hagrees henv) depth)
        (hclosed hsource) (hclosed htarget) c c (.refl c) hs).formed
  | checkAssignable options depth c henv hsource htarget =>
      exact (follows_checkAssignable (resolves_setting options (hagrees henv) depth)
        (hclosed hsource) (hclosed htarget) c c (.refl c) hs).formed

theorem Step.tidy (h : Step s s') (hs : s.Tidy) : s'.Tidy := by
  cases h with
  | lower e count _ => exact (keeps_lower e _ count s hs).1
  | bindParams params count _ => exact (keeps_bindParams params _ count s hs).1
  | lowerAlias a count _ => exact (keeps_lowerAlias a _ count s hs).1
  | union _ => exact (keeps_union _ s hs).1
  | intersection site ds _ => exact (keeps_intersection _ ds s hs).1
  | normalize site ds _ _ => exact (keeps_normalizeAt _ site _ _ ds s hs).1
  | instantiate _ _ => exact (keeps_instantiate _ _ s hs).1
  | evaluate options _ _ _ => exact (keeps_evaluate _ _ _ s hs).1
  | evaluateNormalized options _ _ _ => exact (keeps_evaluateNormalized _ _ _ s hs).1
  | evaluateConditional options _ _ _ _ => exact (keeps_evaluateConditional _ _ _ _ s hs).1
  | evaluateMapped options _ _ _ _ => exact (keeps_evaluateMapped _ _ _ _ s hs).1
  | infer strict _ _ _ _ => exact (keeps_inferAt _ [] strict _ _ _ s hs).1
  | solve strict name _ => exact (keeps_solve strict name _ s hs).1
  | unify literals typeParams _ _ _ => exact (keeps_unify _ literals typeParams _ _ s hs).1
  | typeArguments literals ds _ _ _ _ => exact (keeps_typeArguments _ literals _ _ _ ds s hs).1
  | matchPattern literals names _ _ _ => exact (keeps_matchPattern _ literals _ _ names s hs).1
  | narrow options branch ds _ _ _ => exact (keeps_narrow _ branch _ _ ds s hs).1
  | discriminants options ds _ _ => exact (keeps_discriminants _ _ ds s hs).1
  | isAssignable options depth c _ _ _ =>
      exact (keeps_isAssignable (keeps_nested _ depth) _ _ c s hs).1
  | checkAssignable options depth c _ _ _ =>
      exact (keeps_checkAssignable (keeps_nested _ depth) _ _ c s hs).1

theorem formed_and_tidy_of_reachable (h : Reachable s) : s.Formed ∧ s.Tidy := by
  obtain ⟨numbers, h⟩ := h
  induction h with
  | refl => exact ⟨formed_fresh, tidy_fresh⟩
  | tail _ hstep ih => exact ⟨hstep.formed ih.1, hstep.tidy ih.2⟩

end step

/-- One type is a component of another. -/
def Component (s : Store) (c t : TypeId) : Prop := c ∈ (s.node t).components

theorem Formed.index_lt_of_component {s : Store} {c t : TypeId} (hs : s.Formed)
    (h : s.Component c t) : c.index < t.index := by
  by_cases ht : t.index < s.size
  · exact hs.descends t ht c h
  · rw [Component, node_eq_error_of_size_le (Nat.le_of_not_lt ht)] at h
    cases h

theorem Formed.index_lt_of_transGen {s : Store} {c t : TypeId} (hs : s.Formed)
    (h : Relation.TransGen s.Component c t) : c.index < t.index := by
  induction h with
  | single h => exact hs.index_lt_of_component h
  | tail _ h ih => exact Nat.lt_trans ih (hs.index_lt_of_component h)

/-- No type reaches itself, unions and intersections have their members in order, fields have
different names, and templates have a hole and no texts that are empty or follow each other. -/
structure WellFormed (s : Store) : Prop where
  acyclic : ∀ t, ¬Relation.TransGen s.Component t t
  members : ∀ t ts, s.node t = .union ts ∨ s.node t = .intersection ts →
    2 ≤ ts.length ∧ s.InOrder ts
  fields : ∀ t shape, s.node t = .object shape → (shape.fields.map (·.name)).Nodup
  templates : ∀ t spans, s.node t = .template spans →
    (∃ u, .hole u ∈ spans) ∧ .text "" ∉ spans ∧ spans.IsChain fun a b => ¬(a.isText ∧ b.isText)

theorem wellFormed_of_reachable {s : Store} (h : Reachable s) : s.WellFormed := by
  obtain ⟨hs, htidy⟩ := formed_and_tidy_of_reachable h
  refine ⟨fun t hcycle => ?_, fun t ts hn => ?_, fun t shape hn => ?_, fun t spans hn => ?_⟩
  · exact Nat.lt_irrefl _ (hs.index_lt_of_transGen hcycle)
  · have ht := htidy t
    rcases hn with hn | hn
    · rwa [hn] at ht
    · rwa [hn] at ht
  · have ht := htidy t
    rwa [hn] at ht
  · have ht := htidy t
    rw [hn] at ht
    exact ⟨ht.1, ht.2.nonempty, ht.2.apart⟩

/-- `{ a: string, a: number } | string | string` is lowered to the type 13 and evaluated. -/
theorem wellFormed_of_reachable_repeated :
    let lowered := (TypeExpr.lower
      (.union [.object [.of "a" .string, .of "a" .number], .string, .string]) [] 0 empty).2
    let evaluated := (Eval.evaluate .plain ⟨13⟩ (.fresh .standard 0 none) lowered).2
    evaluated.Reachable ∧ evaluated.WellFormed := by
  intro lowered evaluated
  have hsize : lowered.size = 14 := by
    subst lowered
    cbv
  have hstep : Step lowered evaluated := by
    refine .evaluate _ ?_ ?_ ?_
    · rintro t ⟨a, ha, _⟩
      cases ha
    · rintro t rfl
      rw [hsize]
      decide
    · rintro t ⟨u, hu⟩
      simp [Evaluator.fresh] at hu
  have hreach : evaluated.Reachable := by
    refine ⟨.byAge, .tail (.single (.lower _ 0 ?_)) hstep⟩
    rintro t ⟨b, hb, _⟩
    cases hb
  exact ⟨hreach, wellFormed_of_reachable hreach⟩

end Store

end TypeResolution
