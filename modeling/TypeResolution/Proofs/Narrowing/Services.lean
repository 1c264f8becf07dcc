import TypeResolution.Narrowing.Basic
import TypeResolution.Proofs.Assignability.Coinductive
import TypeResolution.Proofs.Evaluation.Restored
import TypeResolution.Proofs.Narrowing.Widening
import TypeResolution.Proofs.Replay.Requests

/-!
What narrowing asks of evaluation and assignability. A type that is resolved first keeps its values
and is no union of unions. A unit type is told to be assignable to every type that has its value,
whatever the limits are as long as they let a check start.
-/

namespace TypeResolution

open Store

/-- Limits under which every evaluation and every check can start. -/
structure Options.Positive (o : Options) : Prop where
  evaluationDepth : o.maxEvaluationDepth ≠ 0
  subtypeDepth : o.maxSubtypeDepth ≠ 0
  iterations : o.maxIterations ≠ 0

theorem UInt32.toNat_pos_of_ne_zero {n : UInt32} (h : n ≠ 0) : 0 < n.toNat :=
  Nat.pos_of_ne_zero fun h' => h (UInt32.toNat_inj.mp h')

variable {F s s' : Store} {t c k : TypeId} {setting : Setting}

theorem Store.Concrete.closed {P : String → Prop} (h : s.Concrete t) : s.Closed P t := by
  induction h with
  | intro hlt hn _ ih =>
      refine .intro hlt (fun name args hr => ?_) ih
      rw [hr] at hn
      cases hn

theorem Store.IsFlat.mono (h : s.IsFlat t) (hs : s.Extends s') (ht : s.Concrete t) :
    s'.IsFlat t := by
  have hclosed : s.Closed AnyName t := ht.closed
  intro m hm
  rw [unionMembers_eq hs hclosed] at hm
  rw [unionMembers?_eq hs (closed_of_mem_unionMembers hclosed hm)]
  exact h m hm

theorem reporting_forM {α : Type} {f : α → Reporting PUnit}
    (h : ∀ a s, reporting.Holds s (f a) fun s' _ => s' = s) (ds : Array α) :
    reporting.Holds s (ds.forM f) fun s' _ => s' = s := by
  obtain ⟨ds⟩ := ds
  rw [Array.forM_eq_forM, List.forM_toArray]
  induction ds generalizing s with
  | nil => exact reporting.pure rfl
  | cons d rest ih =>
      refine reporting.bind (h d s) fun s₁ _ _ _ h₁ => ?_
      subst h₁
      exact ih

theorem reporting_report (d : Diagnostic) :
    reporting.Holds s (Reporting.report d) fun s' _ => s' = s :=
  fun _ hs => ⟨.refl s, hs, rfl⟩

theorem reporting_filterM {ts : List TypeId} {f : TypeId → Reporting Bool}
    {Q : Store → TypeId → Bool → Prop}
    (hmono : ∀ {s₁ s₂ a b}, s₁.Extends s₂ → Q s₁ a b → Q s₂ a b)
    (h : ∀ a ∈ ts, ∀ s₁, s.Extends s₁ → reporting.Holds s₁ (f a) fun s' b => Q s' a b) :
    reporting.Holds s (ts.filterM f) fun s' kept =>
      (∀ a ∈ kept, a ∈ ts) ∧ ∀ a ∈ ts, ∃ b, Q s' a b ∧ (b = true → a ∈ kept) := by
  have haux : ∀ (l done : List TypeId) (s : Store),
      (∀ a ∈ l, ∀ s₁, s.Extends s₁ → reporting.Holds s₁ (f a) fun s' b => Q s' a b) →
      reporting.Holds s (l.filterAuxM f done) fun s' kept =>
        (∀ a ∈ kept, a ∈ l ∨ a ∈ done) ∧ (∀ a ∈ done, a ∈ kept) ∧
          ∀ a ∈ l, ∃ b, Q s' a b ∧ (b = true → a ∈ kept) := by
    intro l
    induction l with
    | nil => exact fun done s _ => reporting.pure ⟨fun a ha => .inr ha, fun a ha => ha, by simp⟩
    | cons a rest ih =>
        intro done s h
        simp only [List.filterAuxM]
        refine reporting.bind (h a (by simp) s (.refl s)) fun s₁ b h₁ _ hb => ?_
        refine reporting.mono (ih _ s₁ fun d hd s₂ h₂ => h d (by simp [hd]) s₂ (h₁.trans h₂)) ?_
        rintro s₂ kept h₂ _ ⟨hsub, hdone, hrest⟩
        refine ⟨fun d hd => ?_, fun d hd => hdone d ?_, List.forall_mem_cons.mpr ⟨?_, hrest⟩⟩
        · rcases hsub d hd with hd | hd
          · exact .inl (List.mem_cons_of_mem _ hd)
          · cases b with
            | false => exact .inr hd
            | true =>
                rcases List.mem_cons.mp hd with rfl | hd
                · exact .inl List.mem_cons_self
                · exact .inr hd
        · cases b with
          | false => exact hd
          | true => exact List.mem_cons_of_mem _ hd
        · refine ⟨b, hmono h₂ hb, ?_⟩
          rintro rfl
          exact hdone a List.mem_cons_self
  refine reporting.bind (haux ts [] s h) ?_
  rintro s₁ kept h₁ _ ⟨hsub, -, hall⟩
  refine reporting.pure ⟨fun a ha => ?_, fun a ha => ?_⟩
  · exact (hsub a (List.mem_reverse.mp ha)).resolve_right (by simp)
  · obtain ⟨b, hb, hkept⟩ := hall a ha
    exact ⟨b, hb, fun h => List.mem_reverse.mpr (hkept h)⟩

section follows

variable {α : Type} {L : Replay.Link} [Replay.Value L.names α]

/-- A computation that another one follows gives what is fit for the store. -/
theorem building_follows {m m' : Build α} (h : Replay.Follows L s m m') :
    building.Holds s m fun s' a => Replay.Ok L.names s' a := by
  intro hs
  have hrun := h hs
  obtain ⟨_, _, hok⟩ := hrun.partner
  exact ⟨hrun.grows, hrun.formed, hok⟩

theorem reporting_follows {m m' : Reporting α} (h : Replay.Follows L s m m') :
    reporting.Holds s m fun s' a => Replay.Ok L.names s' a := by
  intro ds hs
  have hrun := h ds ds (fun _ => rfl) hs
  obtain ⟨_, ⟨_, hok⟩, _⟩ := hrun.partner
  exact ⟨hrun.grows, hrun.formed, hok⟩

end follows

/-- Narrowing only adds to the store. -/
theorem extends_narrow {guard : TypeGuard} {branch : Branch} (hs : s.Formed) (ht : s.Concrete t)
    (hguard : Replay.Ok (fun _ => False) s guard) (ds : Array Diagnostic) :
    let run := Narrowing.narrow setting t guard branch ds s
    s.Extends run.2 ∧ run.2.Formed := by
  have hnames : setting.environment.Agrees (fun _ => False) s setting.environment :=
    ⟨fun _ h => h.elim, fun _ _ h => h.elim, fun _ _ h => h.elim⟩
  have hfollows : Replay.Follows (.free fun _ => False) s (Narrowing.narrow setting t guard branch)
      (Narrowing.narrow setting t (guard.mapIds fun t => t) branch) :=
    Replay.follows_narrow (.of_agrees hnames) hguard ht.closed
  obtain ⟨hgrows, hformed, -⟩ := reporting_follows hfollows ds hs
  exact ⟨hgrows, hformed⟩

namespace Recursion.Guard

theorem enter_ofLimits {κ : Type} [DecidableEq κ] {maxDepth maxIterations : UInt32} (key : κ)
    (hdepth : maxDepth ≠ 0) (hiterations : maxIterations ≠ 0) :
    ((ofLimits maxDepth maxIterations 0 : Guard κ).enter key).1 = .entered := by
  have hd := UInt32.toNat_pos_of_ne_zero hdepth
  have hi := UInt32.toNat_pos_of_ne_zero hiterations
  have hone : min (0 + 1) (UInt32.size - 1) = 1 := by decide
  simp only [enter, ofLimits, tick, hone]
  rw [if_neg (by omega), if_neg (by omega), if_neg (by simp)]

end Recursion.Guard

namespace Narrowing

theorem typeofMatch_of_kindOf {kind found : TypeofKind} (hfound : kindOf? (s.node t) = some found) :
    typeofMatch s kind t = if found = kind then .always else .never := by
  unfold typeofMatch typeofMatchAt
  cases hn : s.node t with
  | param info =>
      rw [hn] at hfound
      cases hfound
  | _ =>
      rw [hn] at hfound
      simp only [hfound]

theorem typeofMatch_of_not_kindOf {kind : TypeofKind} (hfound : kindOf? (s.node t) = none)
    (hparam : ∀ info, s.node t ≠ .param info) : typeofMatch s kind t = .sometimes := by
  unfold typeofMatch typeofMatchAt
  cases hn : s.node t with
  | param info => exact absurd hn (hparam info)
  | _ =>
      rw [hn] at hfound
      simp only [hfound]

section resolving

variable {P : Store → TypeId → Prop} {C : Store → TypeId → TypeId → Prop}
  {Q : Store → TypeId → Prop} (W : Rewriting (fun _ => P) C)
  (hmeta : ∀ {s t}, P s t → (s.node t).isMeta = false)
  (hrebuild : ∀ s₁, s.Extends s₁ → Rebuilds C s₁ t Q) (ho : setting.options.Positive) (ht : P s t)

include W hmeta hrebuild ho ht

theorem building_evaluate (hfixed : t.isFixed = false) :
    building.Holds s (Eval.evaluate setting t (.fresh setting.options 0 none)) fun s' r =>
      ∃ a, r.1 = .ok a ∧ Q s' a := by
  intro hs
  obtain ⟨n, hn⟩ : ∃ n, setting.options.maxEvaluationDepth.toNat = n + 1 :=
    ⟨_, (Nat.sub_add_cancel (UInt32.toNat_pos_of_ne_zero ho.evaluationDepth)).symm⟩
  have hrun : Eval.evaluate setting t (.fresh setting.options 0 none) s =
      Eval.finish t ((Eval.node (Eval.evaluateAt setting n) setting t (s.node t)).run
        { Evaluator.fresh setting.options 0 none with
          guard := ((Evaluator.fresh setting.options 0 none).guard.enter t).2 } s) := by
    change (Eval.evaluateAt setting setting.options.maxEvaluationDepth.toNat t).run
      (.fresh setting.options 0 none) s = _
    rw [hn]
    refine Eval.guarded_run_entered hfixed rfl ?_ rfl ?_
    · simp [Evaluator.fresh]
    · exact Recursion.Guard.enter_ofLimits t ho.evaluationDepth ho.iterations
  have hnode :
      (evaluating C).Holds s (Eval.node (Eval.evaluateAt setting n) setting t (s.node t)) Q :=
    W.evaluates_node hrebuild hmeta (W.evaluates hmeta setting n) ht
  have hready : Evaluator.Ready C s { Evaluator.fresh setting.options 0 none with
      guard := ((Evaluator.fresh setting.options 0 none).guard.enter t).2 } :=
    ⟨rfl, by simp [Remembers, Evaluator.fresh]⟩
  obtain ⟨hgrows, hformed, a, hok, -, hQ⟩ := hnode _ hready hs
  rw [hrun]
  rcases hend : (Eval.node (Eval.evaluateAt setting n) setting t (s.node t)).run
    { Evaluator.fresh setting.options 0 none with
      guard := ((Evaluator.fresh setting.options 0 none).guard.enter t).2 } s with ⟨⟨r, e⟩, s'⟩
  rw [hend] at hgrows hformed hok hQ
  obtain rfl : r = .ok a := hok
  exact ⟨hgrows, hformed, a, rfl, hQ⟩

/-- A type that needs no resolving is evaluated at once. -/
theorem reporting_resolve_rebuilds : reporting.Holds s (resolve setting t) Q := by
  unfold resolve
  split
  · rename_i hfixed
    exact reporting.formed fun hs =>
      reporting.pure ((hrebuild s (.refl s)).leaf (hs.not_structural_of_isFixed hfixed))
  rename_i hfixed
  refine reporting.bind
    (reporting_lift (building_evaluate W hmeta hrebuild ho ht (by simpa using hfixed))) ?_
  rintro s₁ ⟨r, e⟩ _ _ ⟨a, rfl, hQ⟩
  refine reporting.bind (reporting_forM (fun d _ => reporting_report d) e.diagnostics) ?_
  rintro s₂ _ _ _ rfl
  exact reporting.pure hQ

end resolving

/-- All values of a type are kept when it is resolved, and the members of the result are no
unions. -/
theorem reporting_resolve (hF : F.Formed) (ho : setting.options.Positive) (ht : s.Concrete t) :
    reporting.Holds s (resolve setting t) fun s' r => Widens F s' t r ∧ s'.IsFlat r :=
  reporting_resolve_rebuilds (rewriting_widens hF) Concrete.isMeta
    (fun _ h₁ => rebuilds_widens hF (ht.mono h₁)) ho ht

/-- Asking whether a type is assignable only adds to the store. -/
theorem reporting_isAssignable (hsource : s.Concrete t) (htarget : s.Concrete k) :
    reporting.Holds s (isAssignable setting t k) fun _ _ => True := by
  have hnames : setting.environment.Agrees (fun _ => False) s setting.environment :=
    ⟨fun _ h => h.elim, fun _ _ h => h.elim, fun _ _ h => h.elim⟩
  have hfollows : Replay.Follows (.free fun _ => False) s (isAssignable setting t k)
      (isAssignable setting t k) :=
    Replay.follows_narrowingIsAssignable (.of_agrees hnames) hsource.closed htarget.closed
  exact reporting.mono (reporting_follows hfollows) fun _ _ _ _ _ => trivial

/-- The components of an object whose field gets the type `t`. -/
theorem forall_components_replaced {o : ObjectShape} {property : String} {p : TypeId → Prop}
    (hparts : ∀ d ∈ (Node.object o).components, p d) (ht : p t) :
    ∀ d ∈ (Node.object { o with fields := o.fields.map fun f =>
      if f.name = property then { f with type := t } else f }).components, p d := by
  intro d hd
  simp only [Node.components, List.map_map, List.mem_append, List.mem_map] at hd
  rcases hd with ⟨f, hf, rfl⟩ | hd
  · simp only [Function.comp_apply]
    split
    · exact ht
    · exact hparts f.type (List.mem_append_left _ (List.mem_map_of_mem hf))
  · exact hparts d (List.mem_append_right _ hd)

/-- The members that a judgement keeps in a branch are treated one by one and united. -/
theorem building_sift {R : Store → TypeId → TypeId → Prop} {Q : Store → TypeId → Prop}
    {ms : List TypeId} {judge : TypeId → Match} {branch : Branch}
    {step : TypeId × Match → Build TypeId}
    (hmono : ∀ {s₁ s₂ m u}, s₁.Extends s₂ → R s₁ m u → R s₂ m u)
    (hstep : ∀ m ∈ ms, (judge m).keeps branch → ∀ s₁, s.Extends s₁ → s₁.Formed →
      building.Holds s₁ (step (m, judge m)) (R · m))
    (hunite : ∀ s₁ us, s.Extends s₁ →
      List.Forall₂ (R s₁) (ms.filter fun m => (judge m).keeps branch) us →
      building.Holds s₁ (Build.union us) Q) :
    building.Holds s
      (do
        let narrowed ← ((ms.map fun m => (m, judge m)).filter (·.2.keeps branch)).mapM step
        Build.union narrowed : Build TypeId) Q := by
  have hkept : (ms.map fun m => (m, judge m)).filter (·.2.keeps branch) =
      (ms.filter fun m => (judge m).keeps branch).map fun m => (m, judge m) := List.filter_map
  rw [hkept]
  refine building.bind (building.mapM (P := fun s' (x : TypeId × Match) u => R s' x.1 u) hmono
    fun x hx => ?_) fun s₁ us h₁ _ hus => ?_
  · obtain ⟨m, hm, rfl⟩ := List.mem_map.mp hx
    obtain ⟨hm, hkeeps⟩ := List.mem_filter.mp hm
    exact hstep m hm hkeeps
  · rw [List.forall₂_map_left_iff] at hus
    exact hunite s₁ us h₁ hus

section checks

variable {nested : Check.Nested} {inner : Check.Inner}

/-- Whatever the checker has been through, the check succeeds. -/
def Succeeds (s : Store) (m : Check Bool) : Prop := ∀ x, (m x s).1.1 = true

theorem resolve_plain (h : (s.node t).isMeta = false) (x : Checker) :
    Check.resolve nested t x s = ((t, x), s) := by
  change (if (s.node t).isMeta then _ else pure t : Check TypeId) x s = _
  rw [if_neg (by simp [h])]
  rfl

theorem rules_plain (hc : (s.node c).isMeta = false) (hk : (s.node k).isMeta = false)
    (h : Succeeds s (Check.structures inner c k)) (hnever : k ≠ .never) :
    Succeeds s (Check.rules nested inner c k) := by
  intro x
  unfold Check.rules
  split
  · rfl
  split
  · rfl
  split
  · rfl
  · have hbind : ∀ (f : TypeId → Check Bool) {t}, (s.node t).isMeta = false →
        (Check.resolve nested t >>= f) x s = f t x s := by
      intro f t ht
      change (match Check.resolve nested t x s with | ((a, y), s') => f a y s') = _
      rw [resolve_plain ht]
    rw [hbind _ hc, hbind _ hk, if_pos (by simp)]
    exact h x

theorem succeeds_againstEmptyObject
    (h : s.isEmptyObject k ∧ c.isNullish = false ∧ c ≠ .unknown) :
    Succeeds s (Check.againstEmptyObject c k) := by
  intro x
  change ((if s.isEmptyObject k && !c.isNullish && c ≠ .unknown then pure true
    else Check.fail _ : Check Bool) x s).1.1 = true
  rw [if_pos (by simp [h])]
  rfl

theorem node_bind {α : Type} {f : Node → Check α} {x : Checker} :
    ((Build.node t : Check Node) >>= f) x s = f (s.node t) x s :=
  rfl

theorem get_bind {α : Type} {f : Store → Check α} {x : Checker} :
    (getThe Store >>= f) x s = f s x s :=
  rfl

theorem succeeds_literal {v : Literal} (hc : s.node c = .literal v)
    (hunion : (s.node k).unionMembers? = none) (hmeet : (s.node k).intersectionMembers? = none)
    (h : v.primitive = k ∨ s.isEmptyObject k ∧ c.isNullish = false ∧ c ≠ .unknown) :
    Succeeds s (Check.structures inner c k) := by
  intro x
  have hstructures : Check.structures inner c k x s = Check.literal c k v x s := by
    unfold Check.structures
    rw [node_bind, node_bind, hc]
    cases hn : s.node k with
    | union members => simp [hn, Node.unionMembers?] at hunion
    | intersection members => simp [hn, Node.intersectionMembers?] at hmeet
    | _ => rfl
  rw [hstructures]
  unfold Check.literal
  split
  · rfl
  · have hempty := h.resolve_left ‹_›
    rw [get_bind]
    split_ifs
    · rfl
    · exact succeeds_againstEmptyObject hempty x

theorem succeeds_void (hs : s.Formed) : Succeeds s (Check.structures inner .undefined .void) := by
  intro x
  have hundefined : s.node .undefined = .intrinsic .undefined := hs.node_intrinsic .undefined
  have hvoid : s.node .void = .intrinsic .void := hs.node_intrinsic .void
  unfold Check.structures
  rw [node_bind, node_bind, hundefined, hvoid]
  rfl

theorem rules_top (h : k = .any ∨ k = .unknown ∨ k = .error) :
    Succeeds s (Check.rules nested inner c k) := by
  intro x
  unfold Check.rules
  rw [if_pos (by rcases h with rfl | rfl | rfl <;> rfl)]
  rfl

/-- A checker that is at no pair yet applies the rules. -/
theorem succeeds_isAssignable {o : Options} (ho : o.Positive)
    (h : ∀ inner, Succeeds s (Check.rules nested inner c k)) :
    (Check.isAssignable nested c k (.fresh o) s).1.1 = true := by
  obtain ⟨n, hn⟩ : ∃ n, o.maxSubtypeDepth.toNat = n + 1 :=
    ⟨_, (Nat.sub_add_cancel (UInt32.toNat_pos_of_ne_zero ho.subtypeDepth)).symm⟩
  change (Check.subtypeAt nested o.maxSubtypeDepth.toNat c k (.fresh o) s).1.1 = true
  rw [hn]
  by_cases hck : c = k
  · unfold Check.subtypeAt Check.pair
    rw [if_pos hck]
    rfl
  · have henter := Recursion.Guard.enter_ofLimits (c, k) ho.subtypeDepth ho.iterations
    unfold Check.subtypeAt
    rw [Assignability.pair_run_new hck (by simp [Checker.fresh])]
    rw [show ((Checker.fresh o).guard.enter (c, k)).1 = .entered from henter]
    obtain ⟨failures, hrun, -⟩ := Assignability.work_run
      (Check.rules nested (Check.subtypeAt nested n)) c k
      { Checker.fresh o with guard := ((Checker.fresh o).guard.enter (c, k)).2 } s
    dsimp only
    rw [hrun]
    exact h _ _

end checks

section units

theorem isUnit_cases (h : isUnit s c) :
    (∃ v, s.node c = .literal v) ∨ c = .null ∨ c = .undefined := by
  unfold isUnit isLiteral at h
  simp only [Bool.or_eq_true, decide_eq_true_eq, or_assoc] at h
  refine h.imp_left fun h => ?_
  cases hn : s.node c with
  | literal v => exact ⟨v, rfl⟩
  | _ =>
      rw [hn] at h
      cases h

theorem known_of_isUnit (hs : s.Formed) (h : isUnit s c) : c.index < s.size := by
  rcases isUnit_cases h with ⟨v, hv⟩ | rfl | rfl
  · exact known_of_node hv (by simp)
  · exact hs.known_of_isFixed rfl
  · exact hs.known_of_isFixed rfl

theorem concrete_of_isUnit (hs : s.Formed) (h : isUnit s c) : s.Concrete c := by
  rcases isUnit_cases h with ⟨v, hv⟩ | rfl | rfl
  · refine .made (n := .literal v) (known_of_isUnit hs h) (congrArg _ hv) rfl ?_
    simp [Node.components]
  · exact .of_fixed hs rfl
  · exact .of_fixed hs rfl

theorem isUnit_mono (hs : s.Formed) (hext : s.Extends s') (h : isUnit s c) : isUnit s' c := by
  unfold isUnit isLiteral at h ⊢
  rw [hext.node_eq c (known_of_isUnit hs h)]
  exact h

/-- Why a type that is no union has a value. -/
inductive Has (s : Store) (y : Datum) (k : TypeId) : Prop
  | top : k = .any ∨ k = .unknown ∨ k = .error → Has s y k
  | intrinsic (i : Intrinsic) : k = i.typeId → y ∈ Datum.intrinsic i → Has s y k
  | literal (v : Literal) : s.node k = .literal v → y = .literal v → Has s y k
  | object (o : ObjectShape) : s.node k = .object o → y ∈ Datum.present →
      (o.isEmpty ∨ y.isRecord) → Has s y k
  | function : y = .closure → Has s y k
  | array (values : List Datum) : y = .list values → Has s y k

variable {y : Datum} (hs : s.Formed) (hF : F.Formed) (hsF : s.Extends F) (hk : s.Concrete k)
  (hunion : s.unionMembers? k = none)

include hs hF hsF hk hunion

theorem has_of_mem_values (hy : y ∈ F.values k) : Has s y k := by
  have hkF : F.node k = s.node k := hsF.node_eq k hk.known
  have hnode := hk.node
  cases hn : s.node k with
  | error =>
      have herror : s.node .error = .error := hs.node_fixed (i := 0) (by decide)
      exact .top (.inr (.inr (hs.eq_of_node_eq hk.known (hs.known_of_isFixed rfl)
        (hn.trans herror.symm))))
  | intrinsic i =>
      obtain rfl : k = i.typeId := hs.eq_of_intrinsic hk.known hn
      exact .intrinsic i rfl ((mem_values_intrinsic hF i).mp hy)
  | literal v => exact .literal v hn ((mem_values_literal hF (hkF.trans hn)).mp hy)
  | object o =>
      have hy := (mem_values_object hF (hkF.trans hn)).mp hy
      exact .object o hn hy.1.1 hy.2
  | function f => exact .function ((mem_values_function hF (hkF.trans hn)).mp hy)
  | array d =>
      obtain ⟨values, hy, _⟩ := (mem_values_array hF (hkF.trans hn)).mp hy
      exact .array values hy
  | union members =>
      exact absurd hn (unionMembers?_eq_none_iff.mp hunion _)
  | _ =>
      rw [hn] at hnode
      cases hnode

/-- A type that has the value of a literal is the literal or takes it. -/
theorem succeeds_of_literal {v : Literal} (hc : s.node c = .literal v)
    (hy : Datum.literal v ∈ F.values k) :
    c = k ∨ ∀ nested inner, Succeeds s (Check.rules nested inner c k) := by
  have hcknown : c.index < s.size := known_of_isUnit hs (by simp [isUnit, isLiteral, hc])
  have hapart : ∀ i : Intrinsic, c ≠ i.typeId := by
    rintro i rfl
    cases (hs.node_intrinsic i).symm.trans hc
  have hrules : (v.primitive = k ∨ s.isEmptyObject k ∧ c.isNullish = false ∧ c ≠ .unknown) →
      (s.node k).intersectionMembers? = none → k ≠ .never →
      ∀ nested inner, Succeeds s (Check.rules nested inner c k) :=
    fun h hmeet hnever _ _ => rules_plain (by rw [hc]; rfl) hk.isMeta
      (succeeds_literal hc hunion hmeet h) hnever
  cases has_of_mem_values hs hF hsF hk hunion hy with
  | top htop => exact .inr fun _ _ => rules_top htop
  | intrinsic i hi hvalue =>
      subst hi
      have hmeet : (s.node i.typeId).intersectionMembers? = none := by
        rw [hs.node_intrinsic]
        rfl
      cases i with
      | never => exact hvalue.elim
      | unknown => exact .inr fun _ _ => rules_top (.inr (.inl rfl))
      | any => exact .inr fun _ _ => rules_top (.inl rfl)
      | void | undefined | null => cases hvalue
      | boolean | number | string =>
          obtain ⟨_, hv⟩ := hvalue
          cases hv
          exact .inr (hrules (.inl rfl) hmeet (by decide))
  | literal w hw hvalue =>
      cases hvalue
      exact .inl (hs.eq_of_node_eq hcknown hk.known (hc.trans hw.symm))
  | object o ho _ hempty =>
      have hempty : o.isEmpty := hempty.resolve_right (by simp [Datum.isRecord])
      have hnullish : c.isNullish = false := by
        have hnull : c ≠ .null := hapart .null
        have hundefined : c ≠ .undefined := hapart .undefined
        have hvoid : c ≠ .void := hapart .void
        simp [TypeId.isNullish, hnull, hundefined, hvoid]
      refine .inr (hrules (.inr ⟨?_, hnullish, hapart .unknown⟩) (by rw [ho]; rfl) ?_)
      · simp [isEmptyObject, objectShape?, ho, hempty]
      · rintro rfl
        cases (hs.node_intrinsic .never).symm.trans ho
  | function h => cases h
  | array _ h => cases h

theorem succeeds_of_null (hy : Datum.null ∈ F.values k) :
    .null = k ∨ ∀ nested inner, Succeeds s (Check.rules nested inner .null k) := by
  cases has_of_mem_values hs hF hsF hk hunion hy with
  | top htop => exact .inr fun _ _ => rules_top htop
  | intrinsic i hi hvalue =>
      subst hi
      cases i with
      | never => exact hvalue.elim
      | unknown => exact .inr fun _ _ => rules_top (.inr (.inl rfl))
      | any => exact .inr fun _ _ => rules_top (.inl rfl)
      | null => exact .inl rfl
      | void | undefined => cases hvalue
      | boolean | number | string =>
          obtain ⟨_, h⟩ := hvalue
          cases h
  | literal _ _ h => cases h
  | object _ _ hpresent => exact absurd (.inr rfl) hpresent
  | function h => cases h
  | array _ h => cases h

theorem succeeds_of_undefined (hy : Datum.undefined ∈ F.values k) :
    .undefined = k ∨ ∀ nested inner, Succeeds s (Check.rules nested inner .undefined k) := by
  cases has_of_mem_values hs hF hsF hk hunion hy with
  | top htop => exact .inr fun _ _ => rules_top htop
  | intrinsic i hi hvalue =>
      subst hi
      cases i with
      | never => exact hvalue.elim
      | unknown => exact .inr fun _ _ => rules_top (.inr (.inl rfl))
      | any => exact .inr fun _ _ => rules_top (.inl rfl)
      | undefined => exact .inl rfl
      | void =>
          have hundefined : s.node .undefined = .intrinsic .undefined := hs.node_intrinsic .undefined
          exact .inr fun _ _ => rules_plain (by rw [hundefined]; rfl) hk.isMeta (succeeds_void hs)
            (by decide)
      | null => cases hvalue
      | boolean | number | string =>
          obtain ⟨_, h⟩ := hvalue
          cases h
  | literal _ _ h => cases h
  | object _ _ hpresent => exact absurd (.inl rfl) hpresent
  | function h => cases h
  | array _ h => cases h

/-- A unit type is assignable to every type that has its value. -/
theorem succeeds_of_isUnit (hc : isUnit s c) (hyc : y ∈ F.values c) (hyk : y ∈ F.values k) :
    c = k ∨ ∀ nested inner, Succeeds s (Check.rules nested inner c k) := by
  rcases isUnit_cases hc with ⟨v, hv⟩ | rfl | rfl
  · have hcF := hsF.node_eq c (known_of_isUnit hs hc)
    obtain rfl := (mem_values_literal hF (hcF.trans hv)).mp hyc
    exact succeeds_of_literal hs hF hsF hk hunion hv hyk
  · obtain rfl : y = .null := (mem_values_intrinsic hF .null).mp hyc
    exact succeeds_of_null hs hF hsF hk hunion hyk
  · obtain rfl : y = .undefined := (mem_values_intrinsic hF .undefined).mp hyc
    exact succeeds_of_undefined hs hF hsF hk hunion hyk

end units

theorem reporting_isAssignable_of_succeeds (ho : setting.options.Positive) (hc : s.Concrete c)
    (hk : s.Concrete k) (h : ∀ nested inner, Succeeds s (Check.rules nested inner c k)) :
    reporting.Holds s (isAssignable setting c k) fun _ found => found = true := by
  intro ds hs
  have hquiet : reporting.Holds s (isAssignable setting c k) fun _ _ => True :=
    reporting_isAssignable hc hk
  obtain ⟨hgrows, hformed, -⟩ := hquiet ds hs
  refine ⟨hgrows, hformed, ?_⟩
  let options : Options := { setting.options with excessPropertyCheck := false }
  have hoptions : options.Positive := ⟨ho.evaluationDepth, ho.subtypeDepth, ho.iterations⟩
  change ((fun r : (Bool × Checker) × Store => ((do
      r.1.2.diagnostics.forM fun d => modify fun ds => if ds.contains d then ds else ds.push d
      return r.1.1 : Reporting Bool) ds r.2).1.1)
    (Check.isAssignable (Setting.nested { setting with options := options } 0) c k
      (.fresh options) s)) = true
  exact succeeds_isAssignable hoptions fun inner => h _ inner

/-- Asking whether a constituent agrees with a branch only adds to the store. -/
theorem reporting_agrees {branch : Branch} (hc : s.Concrete c) (hk : s.Concrete k) :
    reporting.Holds s (agrees setting c branch k) fun _ _ => True := by
  unfold agrees
  split
  · exact reporting.pure trivial
  split
  · exact reporting.pure trivial
  refine reporting.bind (reporting_isAssignable hc hk) fun s₁ found h₁ _ _ => ?_
  split
  · exact reporting.pure trivial
  · exact reporting_isAssignable (hk.mono h₁) (hc.mono h₁)

/-- A constituent of a discriminant that has a value on the side of the branch agrees with it. -/
theorem reporting_agrees_of_mem {branch : Branch} {y : Datum} (hF : F.Formed) (hsF : s.Extends F)
    (ho : setting.options.Positive) (hc : isUnit s c) (hk : s.Concrete k)
    (hunion : s.unionMembers? k = none) (hyk : y ∈ F.values k)
    (hside : y ∈ F.values c ↔ branch.isTrue) :
    reporting.Holds s (agrees setting c branch k) fun _ found => found = true := by
  refine reporting.formed fun hs => ?_
  have hcc := concrete_of_isUnit hs hc
  unfold agrees
  split
  · rename_i hbranch
    refine reporting.pure (decide_eq_true fun hkc => ?_)
    have htrue := hside.mp (hkc ▸ hyk)
    simp [htrue] at hbranch
  · rename_i hbranch
    have hyc : y ∈ F.values c := hside.mpr (by simpa using hbranch)
    split
    · exact reporting.pure rfl
    · have hne : c ≠ k := fun h => ‹¬k = c› h.symm
      have hsucceeds := (succeeds_of_isUnit hs hF hsF hk hunion hc hyc hyk).resolve_left hne
      refine reporting.bind (reporting_isAssignable_of_succeeds ho hcc hk hsucceeds)
        fun s₁ found _ _ hfound => ?_
      rw [if_pos hfound]
      exact reporting.pure rfl

end Narrowing

end TypeResolution
