import TypeResolution.Proofs.Context.History
import TypeResolution.Proofs.Evaluated.Instances
import TypeResolution.Proofs.Evaluation.Working
import TypeResolution.Proofs.Tidy.Evaluation

/-!
Without aliases, results are evaluated. Each rule either evaluates what it makes, or takes parts of
what was evaluated, or leaves work undone for which the evaluated parts give no way. What it makes
has less work to do than the type, so that no type is met again while it is under evaluation.
-/

namespace TypeResolution

open Store Replay Eval Inference

variable {s s' : Store} {t r u : TypeId} {ts : List TypeId} {k m : ℕ} {N : ℕ ×ₗ ℕ}

/-- Evaluated, with work of limited depth. -/
structure Resolved (k : ℕ) (s : Store) (t : TypeId) : Prop where
  evaluated : Evaluated s t
  within : s.Within k t

namespace Resolved

theorem mono (h : Resolved k s t) (hext : s.Extends s') : Resolved k s' t :=
  ⟨h.evaluated.mono hext, h.within.mono hext⟩

theorem closed (h : Resolved k s t) : s.Closed AnyName t := h.evaluated.closed

theorem succ (h : Resolved k s t) : Resolved (k + 1) s t := ⟨h.evaluated, h.within.succ⟩

theorem finished (h : Finished s t) : Resolved k s t := ⟨h.evaluated, .finished h⟩

theorem fixed (hs : s.Formed) (ht : t.isFixed) : Resolved k s t := .finished (kept_finished.fixed hs ht)

end Resolved

/-- Unions and intersections of resolved types are resolved. -/
theorem kept_resolved : Normal.Kept (Resolved k) where
  mono h ht := ht.mono h
  known ht := ht.closed.known
  fixed := .fixed
  component {s t c} ht hn hc := by
    refine ⟨kept_evaluated.component ht.evaluated hn hc, ?_⟩
    by_cases hfinished : Finished s t
    · exact .finished (kept_finished.component hfinished hn hc)
    · cases k with
      | zero => exact absurd (within_zero_iff.mp ht.within) hfinished
      | succ k =>
          refine ht.within.scopes hfinished ([], c) ?_
          rw [Node.scopes_of_structural hn]
          exact List.mem_map_of_mem hc
  made {s t} ht hn hform hparts := by
    have hevaluated := kept_evaluated.made ht hn hform fun c hc => (hparts c hc).evaluated
    refine ⟨hevaluated, ?_⟩
    cases k with
    | zero =>
        refine .finished (kept_finished.made ht hn hform fun c hc => ?_)
        exact within_zero_iff.mp (hparts c hc).within
    | succ k =>
        have hfocus : (s.node t).focus = [] := by
          cases h : s.node t <;> first | rfl | (rw [h] at hn; cases hn)
        refine .plain hevaluated.closed hfocus fun x hx => ?_
        rw [Node.scopes_of_structural hn] at hx
        obtain ⟨c, hc, rfl⟩ := List.mem_map.mp hx
        exact (hparts c hc).within

theorem Resolved.member (h : Resolved k s t)
    (hn : s.node t = .union ts ∨ s.node t = .intersection ts) (hu : u ∈ ts) : Resolved k s u := by
  rcases hn with hn | hn <;>
    exact kept_resolved.component h (by rw [hn]; rfl) (by rw [hn]; exact hu)

theorem index_lt_of_member (hs : s.Formed)
    (hn : s.node t = .union ts ∨ s.node t = .intersection ts) (hu : u ∈ ts) : u.index < t.index := by
  have hmem : u ∈ (s.node t).components := by rcases hn with hn | hn <;> (rw [hn]; exact hu)
  exact hs.index_lt_of_component hmem

/-- A type of limited rank, with work of limited depth. -/
structure Smaller (s : Store) (m : ℕ) (N : ℕ ×ₗ ℕ) (t : TypeId) : Prop where
  within : s.Within m t
  rank_lt : s.rank t < N

theorem Smaller.mono (h : Smaller s m N t) (hext : s.Extends s') : Smaller s' m N t where
  within := h.within.mono hext
  rank_lt := rank_eq hext h.within.closed ▸ h.rank_lt

theorem Smaller.of_within (hN : toLex (3 * (k + 1), 0) ≤ N) (h : s.Within k t) : Smaller s k N t :=
  ⟨h, h.rank_lt.trans_le hN⟩

/-- What a type evaluates to: an evaluated type without more work to do. -/
structure EvaluatesTo (s : Store) (t r : TypeId) : Prop where
  closed : s.Closed AnyName t
  evaluated : Evaluated s r
  within : ∀ n, s.Within n t → s.Within n r
  same : Evaluated s t → r = t

namespace EvaluatesTo

theorem mono (h : EvaluatesTo s t r) (hext : s.Extends s') : EvaluatesTo s' t r where
  closed := hext.closed h.closed
  evaluated := h.evaluated.mono hext
  within n hn := (h.within n (hn.back hext h.closed)).mono hext
  same hevaluated := h.same (hevaluated.back hext h.closed)

theorem self (h : Evaluated s t) : EvaluatesTo s t t := ⟨h.closed, h, fun _ h => h, fun _ => rfl⟩

theorem resolved (h : EvaluatesTo s t r) (ht : s.Within k t) : Resolved k s r :=
  ⟨h.evaluated, h.within k ht⟩

end EvaluatesTo

namespace Eval

/-- A key that picks nothing leaves the access for later, or finds nothing. -/
theorem accessKey_eq {s : Store} {t object key : TypeId} {inner : TypeId → Eval TypeId}
    (hpicks : picks (s.node object) (s.node key) = false) (e : Evaluator) :
    accessKey inner t object key e s = deferAccess (waits s object key) object key e s := by
  have hget : (getThe Store : Eval Store).run e s = ((.ok s, e), s) := rfl
  change (accessKey inner t object key).run e s = _
  unfold accessKey waits
  rw [run_bind, hget]
  dsimp only
  generalize s.node object = n, s.node key = k at hpicks
  cases n with
  | union | intersection => cases hpicks
  | object shape =>
      cases k with
      | literal value => cases value <;> first | rfl | cases hpicks
      | intrinsic kind => cases kind <;> first | rfl | cases hpicks
      | _ => rfl
  | array element =>
      cases k with
      | literal value => cases value <;> first | rfl | cases hpicks
      | intrinsic kind => cases kind <;> first | rfl | cases hpicks
      | _ => rfl
  | _ => rfl

end Eval

namespace Context

/-- How an evaluation has ended. -/
structure Ending where
  options : Options
  store : Store
  evaluator : Evaluator

/-- An evaluator, in the absence of aliases, that is at work on the given types, the latest first. It
is on the way to an ending, and has met no type again so far: all that it entered is finished and
remembered, or under evaluation. -/
structure Progress (R : Ending) (active : List TypeId) (s : Store) (e : Evaluator) : Prop where
  store : R.store.Extends s
  active_eq : e.guard.active = active
  depth : e.guard.depth = active.length
  base : e.guard.baseDepth = 0
  maxDepth : e.guard.maxDepth = R.options.maxEvaluationDepth.toNat
  finished : e.guard.iterations ≤ e.cache.size + active.length
  remembered : ∀ t r, e.cache[t]? = some r → EvaluatesTo s t r

variable {R : Ending} {active : List TypeId} {e e' : Evaluator}

theorem Progress.mono (h : Progress R active s e) (hext : s.Extends s') : Progress R active s' e :=
  { h with
    store := h.store.trans hext
    remembered := fun t r hr => (h.remembered t r hr).mono hext }

theorem Progress.of_eq (h : Progress R active s e) (hguard : e'.guard = e.guard)
    (hcache : e'.cache = e.cache) : Progress R active s e' where
  store := h.store
  active_eq := hguard ▸ h.active_eq
  depth := hguard ▸ h.depth
  base := hguard ▸ h.base
  maxDepth := hguard ▸ h.maxDepth
  finished := by
    rw [hguard, hcache]
    exact h.finished
  remembered := hcache ▸ h.remembered

/-- What an evaluation gives that is done. -/
def tracked (R : Ending) (active : List TypeId) : Outcomes Eval where
  Holds s m Q := s.Formed → s.Tidy → ∀ e, Progress R active s e → ∀ a e' s',
    m e s = ((.ok a, e'), s') → s.Extends s' ∧ s'.Formed ∧ s'.Tidy ∧ Progress R active s' e' ∧ Q s' a
  pure h hs htidy e he a e' s' hrun := by
    cases hrun
    exact ⟨.refl _, hs, htidy, he, h⟩
  bind {α β s step f Q Q'} hstep hf hs htidy e he b e' s' hrun := by
    rcases hr : step e s with ⟨⟨r, e₁⟩, s₁⟩
    rw [bind_run hr] at hrun
    cases r with
    | error c => cases hrun
    | ok a =>
        obtain ⟨h₁, hs₁, htidy₁, he₁, ha⟩ := hstep hs htidy e he a e₁ s₁ hr
        obtain ⟨h₂, hrest⟩ := hf s₁ a h₁ hs₁ ha hs₁ htidy₁ e₁ he₁ b e' s' hrun
        exact ⟨h₁.trans h₂, hrest⟩
  formed h hs := h hs hs

variable {α β : Type} {Q : Store → α → Prop} {Q' : Store → β → Prop}

section steps

theorem tracked_tidy {m : Eval α} (h : s.Tidy → (tracked R active).Holds s m Q) :
    (tracked R active).Holds s m Q :=
  fun hs htidy => h htidy hs htidy

theorem tracked_lift {m : Build α} (h : building.Holds s m Q) (htidy : Tidy.Keeps m) :
    (tracked R active).Holds s (liftM m : Eval α) Q := by
  rintro hs hs' e he a e' s' ⟨⟩
  obtain ⟨hgrows, hformed, hQ⟩ := h hs
  exact ⟨hgrows, hformed, (htidy s hs').1, he.mono hgrows, hQ⟩

theorem tracked_get {f : Evaluator → Eval β} (h : ∀ e, (tracked R active).Holds s (f e) Q') :
    (tracked R active).Holds s (get >>= f) Q' :=
  fun hs htidy e he => h e hs htidy e he

theorem tracked_store {f : Store → Eval β} (h : s.Formed → (tracked R active).Holds s (f s) Q') :
    (tracked R active).Holds s ((getThe Store : Eval Store) >>= f) Q' :=
  fun hs htidy e he => h hs hs htidy e he

theorem tracked_node {f : Node → Eval β} (h : (tracked R active).Holds s (f (s.node t)) Q') :
    (tracked R active).Holds s ((liftM (Build.node t) : Eval Node) >>= f) Q' :=
  fun hs htidy e he => h hs htidy e he

theorem tracked_origin {f : Option SourceTag → Eval β}
    (h : ∀ site, (tracked R active).Holds s (f site) Q') :
    (tracked R active).Holds s (Eval.origin? t >>= f) Q' :=
  fun hs htidy e he => h (s.origin? (.type t)) hs htidy e he

/-- What is reported changes neither the store nor the progress. -/
theorem tracked_report {m : Eval α} (h : Reports m) {f : α → Eval β}
    (hf : ∀ a, (tracked R active).Holds s (f a) Q') : (tracked R active).Holds s (m >>= f) Q' := by
  intro hs htidy e he b e' s' hrun
  obtain ⟨a, cycles, reported, ds, hm⟩ := h e s
  have hm : m e s = _ := hm
  rw [bind_run hm] at hrun
  let e₁ := { e with reportedCycles := cycles, depthReported := reported, diagnostics := ds }
  have he₁ : Progress R active s e₁ := he.of_eq rfl rfl
  exact hf a hs htidy e₁ he₁ b e' s' hrun

theorem tracked_productively {m : Eval α} (h : (tracked R active).Holds s m Q) :
    (tracked R active).Holds s (productively m) Q := by
  intro hs htidy e he a e' s' hrun
  rcases hr : m { e with productive := e.productive + 1 } s with ⟨⟨r, e₁⟩, s₁⟩
  cases (productively_run hr).symm.trans hrun
  have he₀ : Progress R active s { e with productive := e.productive + 1 } := he.of_eq rfl rfl
  obtain ⟨hgrows, hformed, htidy', he₁, hQ⟩ := h hs htidy _ he₀ _ _ _ hr
  exact ⟨hgrows, hformed, htidy', he₁.of_eq rfl rfl, hQ⟩

theorem tracked_reporting {m : Reporting α} (h : reporting.Holds s m Q) (htidy : Tidy.Keeps m) :
    (tracked R active).Holds s (Eval.reporting m) Q := by
  have hm : building.Holds s (m.run #[]) fun s' r => Q s' r.1 := h #[]
  refine (tracked R active).bind (tracked_lift hm (Tidy.keeps_of_gives (htidy #[])))
    fun s₁ r _ _ hr => ?_
  exact tracked_report (reports_reportAll r.2) fun _ => (tracked R active).pure hr

theorem tracked_poll : (tracked R active).Holds s poll fun _ _ => True := by
  intro hs htidy e he a e' s' hrun
  have hrun : poll.run e s = _ := hrun
  rw [poll_run] at hrun
  split at hrun <;> cases hrun
  · exact ⟨.refl s, hs, htidy, he, trivial⟩
  · exact ⟨.refl s, hs, htidy, he.of_eq rfl rfl, trivial⟩

theorem tracked_forM {f : β → Eval PUnit} {bs : List β}
    (h : ∀ b s₁, s.Extends s₁ → (tracked R active).Holds s₁ (f b) fun _ _ => True) :
    (tracked R active).Holds s (bs.forM f) fun _ _ => True := by
  induction bs generalizing s with
  | nil => exact (tracked R active).pure trivial
  | cons b rest ih =>
      refine (tracked R active).bind (h b s (.refl s)) fun s₁ _ h₁ _ _ => ?_
      exact ih fun c s₂ h₂ => h c s₂ (h₁.trans h₂)

theorem tracked_members {P : Store → TypeId → Prop} {f : β → Eval TypeId} {bs : List β}
    (hP : ∀ {s s' r}, s.Extends s' → P s r → P s' r)
    (h : ∀ b ∈ bs, ∀ s₁, s.Extends s₁ → (tracked R active).Holds s₁ (f b) P) :
    (tracked R active).Holds s (bs.mapM f) fun s' rs => ∀ r ∈ rs, P s' r := by
  refine (tracked R active).mono ((tracked R active).mapM (P := fun s' _ r => P s' r) hP
    fun b hb s₁ h₁ _ => h b hb s₁ h₁) fun s₁ rs _ _ hrs => ?_
  exact forall_right_of_forall₂ hrs fun _ _ h => h

end steps

/-- From a store on, components of limited rank are evaluated. -/
structure Evaluating (R : Ending) (active : List TypeId) (k : ℕ) (N : ℕ ×ₗ ℕ) (s : Store)
    (inner : TypeId → Eval TypeId) : Prop where
  room : toLex (3 * (k + 1), 0) ≤ N
  result {s₁ : Store} {t : TypeId} : s.Extends s₁ → s₁.Closed AnyName t → s₁.rank t < N →
    (tracked R active).Holds s₁ (inner t) fun s' r =>
      EvaluatesTo s' t r ∧ (t.isFixed ∨ R.evaluator.cache[t]? = some r)
  decides {s₁ : Store} {source target : TypeId} (depth : ℕ) : s.Extends s₁ →
    s₁.Closed AnyName source → s₁.Closed AnyName target →
    building.Holds s₁ (Check.isAssignable ⟨inner, .fresh R.options depth none⟩ source target
      (.fresh R.options)) (fun _ _ => True)
  tidy {source target : TypeId} (depth : ℕ) : Tidy.Keeps (Check.isAssignable
    ⟨inner, .fresh R.options depth none⟩ source target (.fresh R.options))

variable {inner : TypeId → Eval TypeId}

namespace Evaluating

theorem mono (h : Evaluating R active k N s inner) (hext : s.Extends s') :
    Evaluating R active k N s' inner :=
  { h with
    result := fun h₁ => h.result (hext.trans h₁)
    decides := fun depth h₁ => h.decides depth (hext.trans h₁) }

theorem smaller (h : Evaluating R active k N s inner) (ht : Smaller s m N t) :
    (tracked R active).Holds s (inner t) (Resolved m) :=
  (tracked R active).mono (h.result (.refl s) ht.within.closed ht.rank_lt) fun _ _ h₁ _ hr =>
    hr.1.resolved (ht.within.mono h₁)

theorem below (h : Evaluating R active k N s inner) (ht : s.Within k t) :
    (tracked R active).Holds s (inner t) (Resolved k) :=
  h.smaller (.of_within h.room ht)

end Evaluating

section nodes

variable {n : Node}

theorem ne_param_of_focus (hn : n.focus ≠ []) (info : TypeParam) : n ≠ .param info := by
  rintro rfl
  exact hn rfl

theorem ne_object_of_focus (hn : n.focus ≠ []) (shape : ObjectShape) : n ≠ .object shape := by
  rintro rfl
  exact hn rfl

theorem ne_reference_of_focus (hn : n.focus ≠ []) (name : String) (args : List TypeId) :
    n ≠ .reference name args := by
  rintro rfl
  exact hn rfl

theorem known_of_scopes (hn : ∀ info, n ≠ .param info) (hscopes : ∀ x ∈ n.scopes, s.Within m x.2) :
    ∀ c ∈ n.components, s.Closed AnyName c := by
  intro c hc
  obtain ⟨names, hc⟩ := Node.exists_scope hn hc
  exact (hscopes _ hc).closed

/-- A node of evaluated parts at which no work can be done. -/
theorem building_rests (hn : ∀ name args, n ≠ .reference name args) (hparam : ∀ info, n ≠ .param info)
    (hobject : ∀ shape, n ≠ .object shape) (hform : ∀ s', n.InForm s') (hm : m = k ∨ m = k + 1)
    (hwork : m = k ∨ n.focus = []) (hscopes : ∀ x ∈ n.scopes, s.Within m x.2) (hrests : n.Rests s)
    (hparts : ∀ c ∈ n.evaluatedParts, Evaluated s c) :
    building.Holds s (Build.intern n) (Resolved (k + 1)) := by
  have hclosed : n.Closed AnyName s := closedNode_of_components hn (known_of_scopes hparam hscopes)
  have hnode := building_node (n := n) (fun c hc => (hclosed.components c hc).known) hobject
  refine building.mono (building_and (within_intern hparam hm hwork hscopes) hnode)
    fun s' r h hs' hr => ?_
  obtain ⟨hwithin, -, hr⟩ := hr
  refine ⟨.of_rests hwithin.closed hr (hform s') ((Node.rests_iff h hclosed).mpr hrests) ?_, hwithin⟩
  exact fun c hc => (hparts c hc).mono h

/-- A node at which there is work, whose parts are evaluated, waits. -/
theorem building_waits (hfocus : n.focus ≠ []) (hscopes : ∀ x ∈ n.scopes, s.Within k x.2)
    (hrests : n.Rests s) (hparts : ∀ c ∈ n.evaluatedParts, Evaluated s c) :
    building.Holds s (Build.intern n) (Resolved (k + 1)) := by
  refine building_rests (ne_reference_of_focus hfocus) (ne_param_of_focus hfocus)
    (ne_object_of_focus hfocus) (fun s' => ?_) (.inl rfl) (.inl rfl) hscopes hrests hparts
  cases n with
  | union _ | intersection _ => exact absurd rfl hfocus
  | _ => trivial

/-- A node that is made of a member in the place of what was evaluated. -/
theorem building_place (hfocus : n.focus ≠ []) (hscopes : ∀ x ∈ n.scopes, s.Within k x.2)
    (hevaluated : ∀ c ∈ n.focus, Evaluated s c)
    (hN : toLex (3 * (k + 1), (n.focus.map (·.index)).sum + 1) ≤ N) :
    building.Holds s (Build.intern n) fun s' t => Smaller s' (k + 1) N t := by
  have hparam := ne_param_of_focus hfocus
  have hnode := building_node (n := n) (fun c hc => (known_of_scopes hparam hscopes c hc).known)
    (ne_object_of_focus hfocus)
  refine building.mono (building_and (within_intern hparam (.inl rfl) (.inl rfl) hscopes) hnode)
    fun s' t h _ ht => ?_
  obtain ⟨hwithin, -, hn⟩ := ht
  subst hn
  exact ⟨hwithin, (rank_lt_of_focus hwithin hfocus fun c hc => (hevaluated c hc).mono h).trans_le hN⟩

/-- A member takes the place of the union that the one part under evaluation gives. -/
theorem building_member {n₀ : Node} {c v : TypeId} {members : List TypeId} {s₁ s₂ : Store}
    (hd : s.Descends k N n₀) (hfocus₀ : n₀.focus = [c]) (h₁ : s.Extends s₁)
    (hresult : EvaluatesTo s₁ c v) (hv : Resolved k s₁ v) (hn : s₁.node v = .union members)
    (hu : u ∈ members) (h₂ : s₁.Extends s₂) (hs₂ : s₂.Formed) (hfocus : n.focus = [u])
    (hscopes : s₂.Within k u → ∀ x ∈ n.scopes, s₂.Within k x.2) :
    building.Holds s₂ (Build.intern n) fun s' t => Smaller s' (k + 1) N t := by
  have hn₂ : s₂.node v = .union members := (hv.closed.node_eq h₂).trans hn
  have hu' : Resolved k s₂ u := (hv.mono h₂).member (.inl hn₂) hu
  have hindex : u.index < v.index := index_lt_of_member hs₂ (.inl hn₂) hu
  have hsame : List.Forall₂ (fun c r => Evaluated s c → r = c) n₀.focus [v] := by
    rw [hfocus₀]
    exact .cons (fun h => hresult.same (h.mono h₁)) .nil
  have hle : toLex (3 * (k + 1), u.index + 1) ≤ N := by
    refine le_trans ?_ (hd.focus (by simp [hfocus₀]) [v] hsame)
    rw [Prod.Lex.toLex_le_toLex]
    exact .inr ⟨rfl, by simpa using hindex⟩
  exact building_place (by simp [hfocus]) (hscopes hu'.within) (by simpa [hfocus] using hu'.evaluated)
    (by simpa [hfocus] using hle)

end nodes

section rules

theorem tracked_fixed (ht : t.isFixed) : (tracked R active).Holds s (pure t) (Resolved k) :=
  (tracked R active).formed fun hs => (tracked R active).pure (.fixed hs ht)

theorem tracked_union (hts : ∀ t ∈ ts, Resolved k s t) :
    (tracked R active).Holds s (Eval.union ts) (Resolved k) :=
  tracked_lift (kept_resolved.union hts) (Tidy.keeps_union ts)

theorem tracked_intersection (hts : ∀ t ∈ ts, Resolved k s t) (site : Option SourceTag) :
    (tracked R active).Holds s (Eval.intersection site ts) (Resolved k) :=
  tracked_reporting (kept_resolved.intersection hts) (Tidy.keeps_intersection ts)

theorem tracked_instantiate {σ : Substitution} (hσ : Binds Finished s σ) (ht : s.Within m t) :
    (tracked R active).Holds s (liftM (Build.instantiate σ t) : Eval TypeId) fun s' u =>
      s'.Within m u := by
  refine tracked_tidy fun htidy => ?_
  have hbelow : s.TidyTo s.size := ⟨Nat.le_refl _, fun u _ => htidy u⟩
  refine tracked_lift (building.mono (building_instantiate hbelow ht.closed.known hσ)
    fun s' u h _ hu => ?_) (Tidy.keeps_instantiate σ t)
  exact hu.within m (ht.mono h)

theorem binds_bindAll (ht : Finished s t) (names : List String) :
    Binds Finished s (bindAll names t) := by
  have hfold : ∀ (l : List String) (σ : Substitution), Binds Finished s σ →
      Binds Finished s (l.foldl (fun σ name => σ.insert name t) σ) := by
    intro l
    induction l with
    | nil => exact fun σ hσ => hσ
    | cons name rest ih => exact fun σ hσ => ih _ (hσ.insert ht name)
  refine hfold names .empty fun name u h => ?_
  cases h

variable (hi : Evaluating R active k N s inner)

include hi

theorem tracked_instantiated {σ : Substitution} (hσ : Binds Finished s σ) (ht : s.Within k t) :
    (tracked R active).Holds s (do let u ← Build.instantiate σ t; inner u : Eval TypeId)
      (Resolved k) :=
  (tracked R active).bind (tracked_instantiate hσ ht) fun _ _ h₁ _ hu => (hi.mono h₁).below hu

theorem tracked_perMember {place : TypeId → Build TypeId} (htidy : ∀ t, Tidy.Keeps (place t))
    (hplace : ∀ t ∈ ts, ∀ s₁, s.Extends s₁ → s₁.Formed →
      building.Holds s₁ (place t) fun s' u => Smaller s' (k + 1) N u) :
    (tracked R active).Holds s (perMember inner place ts) (Resolved (k + 1)) := by
  refine (tracked R active).bind (tracked_members (fun h hr => hr.mono h) fun t ht s₁ h₁ => ?_)
    fun s₁ rs _ _ hrs => tracked_union hrs
  refine (tracked R active).formed fun hs₁ => ?_
  refine (tracked R active).bind (tracked_lift (hplace t ht s₁ h₁ hs₁) (htidy t)) fun s₂ u h₂ _ hu => ?_
  exact (hi.mono (h₁.trans h₂)).smaller hu

theorem tracked_isAssignable {source target : TypeId} (hsource : s.Closed AnyName source)
    (htarget : s.Closed AnyName target) :
    (tracked R active).Holds s (Eval.isAssignable inner ⟨.empty, R.options⟩ source target)
      fun _ _ => True := by
  refine tracked_get fun e => ?_
  have hcheck := hi.decides e.guard.depth (.refl s) hsource htarget
  refine (tracked R active).bind (tracked_lift hcheck (hi.tidy _)) fun s₁ x _ _ _ => ?_
  exact tracked_report (reports_reportAll _) fun _ => (tracked R active).pure trivial

section conditionals

variable {c : Conditional} (hscopes : ∀ x ∈ (Node.conditional c).scopes, s.Within k x.2)

include hscopes

omit hi in
theorem within_conditional : s.Within k c.check ∧ s.Within k c.whenFalse ∧ s.Within k c.pattern ∧
    s.Within k c.whenTrue := by
  simpa [Node.scopes] using hscopes

theorem tracked_bothBranches :
    (tracked R active).Holds s (bothBranches inner c) (Resolved k) := by
  refine (tracked R active).formed fun hs => ?_
  obtain ⟨-, hfalse, -, htrue⟩ := within_conditional hscopes
  have hσ := binds_bindAll (kept_finished.fixed hs (t := .unknown) rfl) c.infer
  refine (tracked R active).bind (tracked_instantiate hσ htrue) fun s₁ u h₁ _ hu => ?_
  refine (tracked R active).bind ((hi.mono h₁).below hu) fun s₂ v h₂ _ hv => ?_
  have h₁₂ := h₁.trans h₂
  refine (tracked R active).bind ((hi.mono h₁₂).below (hfalse.mono h₁₂)) fun s₃ w h₃ _ hw => ?_
  exact tracked_union (by simpa using ⟨hv.mono h₃, hw⟩)

theorem tracked_falseBranch :
    (tracked R active).Holds s (falseBranch inner t c) (Resolved k) := by
  obtain ⟨-, hfalse, -, -⟩ := within_conditional hscopes
  refine tracked_store fun hs => ?_
  have hreport : ∀ (names : List String) (site : Option SourceTag), Reports (names.forM fun name =>
      report ((Diagnostic.of .unresolvedReference [name]).withLocation site)) := by
    intro names site
    induction names with
    | nil => exact reports_pure _
    | cons name rest ih => exact reports_bind (reports_report _) fun _ => ih
  refine tracked_report (hreport _ _) fun _ => ?_
  exact tracked_instantiated hi (binds_bindAll (kept_finished.fixed hs (t := .unknown) rfl) _) hfalse

omit hscopes in
theorem tracked_fit {check pattern : TypeId} (hcheck : Finished s check) (hpattern : s.Within k pattern) :
    (tracked R active).Holds s (fit inner ⟨.empty, R.options⟩ check pattern c.infer) fun s' found =>
      ∀ σ, found = some σ → Binds Finished s' σ := by
  have hassign : ∀ s₁, s.Extends s₁ → ∀ σ, Binds Finished s₁ σ → ∀ bound, s₁.Closed AnyName bound →
      (tracked R active).Holds s₁ (do
        if ← Eval.isAssignable inner ⟨.empty, R.options⟩ check bound then return some σ
        else return none) fun s' found => ∀ σ, found = some σ → Binds Finished s' σ := by
    intro s₁ h₁ σ hσ bound hbound
    refine (tracked R active).bind (tracked_isAssignable (hi.mono h₁) (h₁.closed hcheck.closed) hbound)
      fun s₂ b h₂ _ _ => ?_
    split
    · refine (tracked R active).pure ?_
      rintro _ ⟨⟩ name u hu
      exact (hσ name u hu).mono h₂
    · exact (tracked R active).pure nofun
  have hfits : ∀ s₁, s.Extends s₁ → ∀ σ, Binds Finished s₁ σ → (tracked R active).Holds s₁ (do
      let pattern ←
        if σ.isEmpty then pure pattern
        else do
          let bound ← Build.instantiate σ pattern
          inner bound
      if ← Eval.isAssignable inner ⟨.empty, R.options⟩ check pattern then return some σ
      else return none) fun s' found => ∀ σ, found = some σ → Binds Finished s' σ := by
    intro s₁ h₁ σ hσ
    have hpattern := hpattern.mono h₁
    split
    · exact hassign s₁ h₁ σ hσ pattern hpattern.closed
    · refine (tracked R active).bind (tracked_instantiate hσ hpattern) fun s₂ u h₂ _ hu => ?_
      have h₁₂ := h₁.trans h₂
      refine (tracked R active).bind ((hi.mono h₁₂).below hu) fun s₃ bound h₃ _ hbound => ?_
      refine hassign s₃ (h₁₂.trans h₃) σ (fun name u hu => ?_) bound hbound.closed
      exact (hσ name u hu).mono (h₂.trans h₃)
  unfold fit
  split
  · refine hfits s (.refl s) .empty fun name u hu => ?_
    cases hu
  · refine (tracked R active).bind (tracked_lift (binds_matchPattern hcheck)
      (Tidy.keeps_matchPattern _ _ _ _ _)) fun s₁ found h₁ _ hfound => ?_
    cases found with
    | none => exact (tracked R active).pure nofun
    | some σ => exact hfits s₁ h₁ σ (hfound σ rfl)

/-- The choice is made, or waits for a parameter. -/
theorem tracked_choose {check : TypeId} (hcheck : Resolved k s check) (hany : check ≠ .any)
    (hsplit : c.distributive → check ≠ .never ∧ s.unionMembers? check = none)
    (hsearched : s.Searched check) :
    (tracked R active).Holds s (choose inner ⟨.empty, R.options⟩ t c check) (Resolved (k + 1)) := by
  obtain ⟨-, hfalse, hpattern, htrue⟩ := within_conditional hscopes
  have hsucc : ∀ {s₁ : Store} {m : Eval TypeId}, (tracked R active).Holds s₁ m (Resolved k) →
      (tracked R active).Holds s₁ m (Resolved (k + 1)) := fun hm =>
    (tracked R active).mono hm fun _ _ _ _ hr => hr.succ
  refine (tracked R active).bind (hi.below hpattern) fun s₁ pattern h₁ _ hpattern' => ?_
  refine tracked_store fun hs₁ => ?_
  have hcheck₁ := hcheck.mono h₁
  have hunion : s₁.unionMembers? check = s.unionMembers? check := by
    rw [unionMembers?, hcheck.closed.node_eq h₁, unionMembers?]
  split
  · rename_i hwaits
    refine tracked_lift (building_waits (n := .conditional { c with check, pattern })
      (by simp [Node.focus]) ?_ ⟨hany, fun hd => hunion ▸ hsplit hd, hwaits⟩ ?_)
      (Tidy.keeps_conditional _)
    · simp only [Node.scopes, List.forall_mem_cons]
      exact ⟨hcheck₁.within, hfalse.mono h₁, hpattern'.within, htrue.mono h₁, by simp⟩
    · simp only [Node.evaluatedParts, List.forall_mem_cons]
      exact ⟨hcheck₁.evaluated, hpattern'.evaluated, by simp⟩
  · rename_i hready
    simp only [Bool.or_eq_true, not_or, Bool.not_eq_true] at hready
    have hfinished := Finished.of_containsParams hs₁ hcheck₁.evaluated
      (hsearched.mono h₁ hcheck.closed) hready.1
    have hi₁ := hi.mono h₁
    have hscopes₁ : ∀ x ∈ (Node.conditional c).scopes, s₁.Within k x.2 := fun x hx =>
      (hscopes x hx).mono h₁
    refine (tracked R active).bind (tracked_fit hi₁ hfinished hpattern'.within)
      fun s₂ found h₂ _ hfound => hsucc ?_
    cases found with
    | some σ =>
        exact tracked_instantiated (hi₁.mono h₂) (hfound σ rfl) ((htrue.mono h₁).mono h₂)
    | none => exact tracked_falseBranch (hi₁.mono h₂) fun x hx => (hscopes₁ x hx).mono h₂

omit hscopes in
theorem tracked_conditional (hd : s.Descends k N (.conditional c))
    (hsearched : ∀ u, R.evaluator.cache[c.check]? = some u → ∀ s₁, s.Extends s₁ →
      (c.distributive → s₁.unionMembers? u = none) → s₁.Searched u) :
    (tracked R active).Holds s (Eval.conditional inner ⟨.empty, R.options⟩ t c)
      (Resolved (k + 1)) := by
  have hscopes := hd.work (by simp [Node.focus])
  obtain ⟨hcheck, hfalse, hpattern, htrue⟩ := within_conditional hscopes
  refine (tracked R active).bind (hi.result (.refl s) hcheck.closed (hcheck.rank_lt.trans_le hi.room))
    fun s₁ check h₁ hs₁ hcheck' => ?_
  obtain ⟨hresult, hknown⟩ := hcheck'
  have hcheck' := hresult.resolved (hcheck.mono h₁)
  have hi₁ := hi.mono h₁
  have hscopes₁ : ∀ x ∈ (Node.conditional c).scopes, s₁.Within k x.2 := fun x hx =>
    (hscopes x hx).mono h₁
  -- the checked type is fixed or remembered, and what is remembered was searched to its end
  have hsearched₁ : (c.distributive → s₁.unionMembers? check = none) → s₁.Searched check := by
    intro hnone
    rcases hknown with hfixed | hknown
    · obtain rfl := hresult.same (.of_fixed hs₁ hfixed)
      exact .fixed hfixed
    · exact hsearched check hknown s₁ h₁ hnone
  split
  · exact (tracked R active).mono (tracked_bothBranches hi₁ hscopes₁) fun _ _ _ _ hr => hr.succ
  rename_i hany
  split
  · exact tracked_fixed rfl
  rename_i hnever
  refine tracked_node ?_
  split
  · rename_i members hdist hn
    refine tracked_perMember hi₁ (fun t => Tidy.keeps_conditional _) fun u hu s₂ h₂ hs₂ => ?_
    refine building_member hd rfl h₁ hresult hcheck' hn hu h₂ hs₂ rfl fun hu' => ?_
    have h₁₂ := h₁.trans h₂
    simp only [Node.scopes, List.forall_mem_cons]
    exact ⟨hu', hfalse.mono h₁₂, hpattern.mono h₁₂, htrue.mono h₁₂, by simp⟩
  · rename_i hnone
    have hplain : c.distributive → s₁.unionMembers? check = none := fun hd =>
      unionMembers?_eq_none_iff.mpr fun members => hnone members hd
    refine tracked_choose hi₁ hscopes₁ hcheck' hany (fun hd => ⟨fun h => hnever ?_, hplain hd⟩)
      (hsearched₁ hplain)
    simp [hd, h]

end conditionals

section mapped

variable {mp : Mapped} (hscopes : ∀ x ∈ (Node.mapped mp).scopes, s.Within k x.2)

include hscopes

omit hi in
theorem within_mapped : s.Within k mp.source ∧ (∀ u, mp.keyFilter = some u → s.Within k u) ∧
    s.Within k mp.template ∧ ∀ u, mp.nameType = some u → s.Within k u := by
  simp only [Node.scopes, List.forall_mem_cons, List.forall_mem_map, List.forall_mem_append,
    Option.mem_toList] at hscopes
  exact hscopes

theorem tracked_keeps {σ : Substitution} (hσ : Binds Finished s σ) :
    (tracked R active).Holds s (keeps inner mp σ) fun _ _ => True := by
  obtain ⟨-, hfilter, -, -⟩ := within_mapped hscopes
  unfold keeps
  cases h : mp.keyFilter with
  | none => exact (tracked R active).pure trivial
  | some u =>
      refine (tracked R active).bind (tracked_instantiate hσ (hfilter u h)) fun s₁ v h₁ _ hv => ?_
      exact (tracked R active).bind ((hi.mono h₁).below hv) fun _ _ _ _ _ =>
        (tracked R active).pure trivial

theorem tracked_mappedName {σ : Substitution} (hσ : Binds Finished s σ) (key : String) :
    (tracked R active).Holds s (mappedName inner mp σ key) fun _ _ => True := by
  obtain ⟨-, -, -, hname⟩ := within_mapped hscopes
  unfold mappedName
  cases h : mp.nameType with
  | none => exact (tracked R active).pure trivial
  | some u =>
      refine (tracked R active).bind (tracked_instantiate hσ (hname u h)) fun s₁ v h₁ _ hv => ?_
      refine (tracked R active).bind ((hi.mono h₁).below hv) fun _ _ _ _ _ => ?_
      split
      · exact (tracked R active).pure trivial
      · exact tracked_store fun _ => (tracked R active).pure trivial

theorem tracked_mapField (f : Field) :
    (tracked R active).Holds s (mapField inner mp f) fun s' new =>
      ∀ g, new = some g → Resolved k s' g.field.type := by
  obtain ⟨-, -, htemplate, -⟩ := within_mapped hscopes
  have hlater : ∀ {s₁}, s.Extends s₁ → ∀ x ∈ (Node.mapped mp).scopes, s₁.Within k x.2 :=
    fun h₁ x hx => (hscopes x hx).mono h₁
  refine (tracked R active).bind tracked_poll fun s₁ _ h₁ _ _ => ?_
  refine (tracked R active).bind (tracked_lift (building_finished_text f.name)
    (Tidy.keeps_stringLiteral f.name)) fun s₂ key h₂ _ hkey => ?_
  have h₁₂ := h₁.trans h₂
  have hσ : Binds Finished s₂ (Substitution.empty.insert mp.keyParam key) :=
    Binds.insert (fun name u h => by cases h) hkey mp.keyParam
  refine (tracked R active).bind (tracked_keeps (hi.mono h₁₂) (hlater h₁₂) hσ)
    fun s₃ keep h₃ _ _ => ?_
  have h₁₃ := h₁₂.trans h₃
  split
  · have hσ₃ := fun name u hu => (hσ name u hu).mono h₃
    refine (tracked R active).bind (tracked_mappedName (hi.mono h₁₃) (hlater h₁₃) hσ₃ f.name)
      fun s₄ name h₄ _ _ => ?_
    cases name with
    | none => exact (tracked R active).pure nofun
    | some name =>
        have h₁₄ := h₁₃.trans h₄
        have hσ₄ := fun name u hu => (hσ₃ name u hu).mono h₄
        refine (tracked R active).bind (tracked_instantiate hσ₄ (htemplate.mono h₁₄))
          fun s₅ u h₅ _ hu => ?_
        refine (tracked R active).bind ((hi.mono (h₁₄.trans h₅)).below hu) fun s₆ v _ _ hv => ?_
        refine (tracked R active).pure ?_
        rintro _ ⟨⟩
        exact hv
  · exact (tracked R active).pure nofun

omit hi hscopes in
theorem resolved_putMapped {new : MappedField} {done : List MappedField}
    (hnew : Resolved k s new.field.type) (hdone : ∀ f ∈ done, Resolved k s f.field.type) :
    ∀ f ∈ putMapped new done, Resolved k s f.field.type := by
  induction done with
  | nil => simpa [putMapped] using hnew
  | cons old rest ih =>
      obtain ⟨hold, hrest⟩ := List.forall_mem_cons.mp hdone
      unfold putMapped
      split
      · exact List.forall_mem_cons.mpr ⟨hnew, hrest⟩
      · exact List.forall_mem_cons.mpr ⟨hold, ih hrest⟩

theorem tracked_mapFields (source : TypeId) (fields : List Field) {done : List MappedField}
    (hdone : ∀ f ∈ done, Resolved k s f.field.type) (hnames : (done.map (·.field.name)).Nodup) :
    (tracked R active).Holds s (mapFields inner mp source fields done) fun s' fields =>
      (∀ f ∈ fields, Resolved k s' f.field.type) ∧ (fields.map (·.field.name)).Nodup := by
  induction fields generalizing s done with
  | nil => exact (tracked R active).pure ⟨hdone, hnames⟩
  | cons f rest ih =>
      refine (tracked R active).bind (tracked_mapField hi hscopes f) fun s₁ new h₁ _ hnew => ?_
      have hdone₁ : ∀ f ∈ done, Resolved k s₁ f.field.type := fun g hg => (hdone g hg).mono h₁
      have hscopes₁ : ∀ x ∈ (Node.mapped mp).scopes, s₁.Within k x.2 := fun x hx =>
        (hscopes x hx).mono h₁
      cases new with
      | none => exact ih (hi.mono h₁) hscopes₁ hdone₁ hnames
      | some new =>
          have hput := ih (hi.mono h₁) hscopes₁ (resolved_putMapped (hnew new rfl) hdone₁)
            ((Tidy.puts_putMapped new done).nodup hnames)
          dsimp only
          split
          · exact tracked_report (reports_reportCollision _ _ _ _) fun _ => hput
          · exact hput

omit hi hscopes in
/-- The object of evaluated fields. -/
theorem tracked_mapResult {source : TypeId} {fields : List MappedField} {index : Option TypeId}
    (hfields : ∀ f ∈ fields, Resolved k s f.field.type) (hnames : (fields.map (·.field.name)).Nodup)
    (hindex : ∀ t, index = some t → Resolved k s t) :
    (tracked R active).Holds s (do
      let result ← Build.object ⟨fields.map (·.field), index⟩
      fields.forM fun f => do
        if let some tag ← Build.origin? (.field source f.key) then
          Build.recordOrigin (.field result f.field.name) tag
      return result : Eval TypeId) (Resolved k) := by
  have hparts : ∀ c ∈ (Node.object ⟨fields.map (·.field), index⟩).components, Resolved k s c := by
    intro c hc
    simp only [Node.components, List.map_map, List.mem_append, List.mem_map, Option.mem_toList] at hc
    rcases hc with ⟨f, hf, rfl⟩ | hc
    · exact hfields f hf
    · exact hindex c hc
  have hdistinct : ((fields.map (·.field)).map (·.name)).Nodup := by
    rw [List.map_map]
    exact hnames
  refine (tracked R active).bind (tracked_lift (kept_resolved.makes_object hparts)
    (Tidy.keeps_object hdistinct)) fun s₁ t _ _ ht => ?_
  refine (tracked R active).bind (tracked_forM fun f s₂ _ => ?_) fun s₂ _ h₂ _ _ =>
    (tracked R active).pure (ht.1.mono h₂)
  refine (tracked R active).bind (Q := fun _ _ => True)
    (tracked_lift (building_quiet (.refl s₂) trivial) (Tidy.keeps_origin _)) fun s₃ tag _ _ _ => ?_
  cases tag with
  | none => exact (tracked R active).pure trivial
  | some tag =>
      exact tracked_lift (building_quiet (alike_recordOrigin s₃ _ _) trivial)
        (Tidy.keeps_recordOrigin _ _)

theorem tracked_mapObject (source : TypeId) (shape : ObjectShape) :
    (tracked R active).Holds s (mapObject inner mp source shape) (Resolved k) := by
  obtain ⟨-, -, htemplate, -⟩ := within_mapped hscopes
  refine (tracked R active).bind (tracked_mapFields hi hscopes source shape.fields (by simp) (by simp))
    fun s₁ fields h₁ hs₁ hfields => ?_
  obtain ⟨hfields, hnames⟩ := hfields
  have hmade : ∀ {s₂ : Store} (index : Option TypeId), (∀ t, index = some t → Resolved k s₂ t) →
      (tracked R active).Holds s₂ (pure index) fun s' index =>
        ∀ t, index = some t → Resolved k s' t :=
    fun _ h => (tracked R active).pure h
  split
  · have hσ : Binds Finished s₁ (Substitution.empty.insert mp.keyParam .string) :=
      Binds.insert (fun name u h => by cases h) (kept_finished.fixed hs₁ rfl) mp.keyParam
    refine (tracked R active).bind (tracked_instantiate hσ (htemplate.mono h₁)) fun s₂ u h₂ _ hu => ?_
    refine (tracked R active).bind ((hi.mono (h₁.trans h₂)).below hu) fun s₃ v h₃ _ hv => ?_
    refine (tracked R active).bind (hmade _ ?_) fun s₄ index h₄ _ hindex => ?_
    · rintro _ ⟨⟩
      exact hv
    · exact tracked_mapResult (fun f hf => (hfields f hf).mono ((h₂.trans h₃).trans h₄)) hnames hindex
  · refine (tracked R active).bind (hmade _ nofun) fun s₂ index h₂ _ hindex => ?_
    exact tracked_mapResult (fun f hf => (hfields f hf).mono h₂) hnames hindex

omit hscopes in
theorem tracked_mapped (hd : s.Descends k N (.mapped mp)) :
    (tracked R active).Holds s (Eval.mapped inner mp) (Resolved (k + 1)) := by
  have hscopes := hd.work (by simp [Node.focus])
  have hsource := (within_mapped hscopes).1
  refine (tracked R active).bind (hi.result (.refl s) hsource.closed
    (hsource.rank_lt.trans_le hi.room)) fun s₁ source h₁ _ hsource' => ?_
  have hresult := hsource'.1
  have hsource' := hresult.resolved (hsource.mono h₁)
  have hi₁ := hi.mono h₁
  have hplace : ∀ s₂, s₁.Extends s₂ → ∀ u, s₂.Within k u →
      ∀ x ∈ (Node.mapped { mp with source := u }).scopes, s₂.Within k x.2 := by
    intro s₂ h₂ u hu x hx
    rcases List.mem_cons.mp hx with rfl | hx
    · exact hu
    · exact (hscopes x (List.mem_cons_of_mem _ hx)).mono (h₁.trans h₂)
  have hwait : Eval.unmapped (s₁.node source) → (tracked R active).Holds s₁
      (liftM (Build.mapped { mp with source := source }) : Eval TypeId) (Resolved (k + 1)) := by
    intro hunmapped
    refine tracked_lift (building_waits (n := .mapped { mp with source }) (by simp [Node.focus])
      (hplace s₁ (.refl _) _ hsource'.within) hunmapped ?_) (Tidy.keeps_mapped _)
    simpa [Node.evaluatedParts] using hsource'.evaluated
  refine tracked_node ?_
  cases hn : s₁.node source with
  | union members =>
      exact tracked_perMember hi₁ (fun t => Tidy.keeps_mapped _) fun u hu s₂ h₂ hs₂ =>
        building_member hd rfl h₁ hresult hsource' hn hu h₂ hs₂ rfl (hplace s₂ h₂ u)
  | object shape =>
      refine (tracked R active).mono (tracked_mapObject hi₁ (fun x hx => (hscopes x hx).mono h₁)
        source shape) fun _ _ _ _ hr => hr.succ
  | intrinsic | literal | array | function | error => exact (tracked R active).pure hsource'.succ
  | _ => exact hwait (by rw [hn]; rfl)

end mapped

section access

variable {object key : TypeId}

omit hi in
/-- The field of a resolved object that has the name. -/
theorem resolved_fieldType {shape : ObjectShape} (hs : s.Formed) (h : Resolved k s object)
    (hn : s.node object = .object shape) (name : String) : Resolved k s (fieldType shape name) := by
  have hpart := kept_resolved.of_mem_object h hn
  unfold fieldType
  cases hfind : shape.find? name with
  | some f =>
      refine hpart f.type (List.mem_append_left _ (List.mem_map_of_mem ?_))
      exact List.mem_of_find?_eq_some hfind
  | none =>
      cases hindex : shape.stringIndex with
      | some u => exact hpart u (by simp [Node.components, hindex])
      | none => exact .fixed hs rfl

omit hi in
theorem within_access (hobject : s.Within k object) (hkey : s.Within k key) :
    ∀ x ∈ (Node.indexAccess object key).scopes, s.Within k x.2 := by
  simpa [Node.scopes, Node.components] using ⟨hobject, hkey⟩

omit hi in
theorem tracked_deferAccess (hobject : Resolved k s object) (hkey : Resolved k s key)
    (hany : object ≠ .any) (hnever : key ≠ .never) (hunion : s.unionMembers? key = none)
    (hpicks : picks (s.node object) (s.node key) = false) :
    (tracked R active).Holds s (deferAccess (waits s object key) object key) (Resolved (k + 1)) := by
  unfold deferAccess
  split
  · rename_i hwaits
    refine tracked_lift (building_waits (by simp [Node.focus])
      (within_access hobject.within hkey.within) ⟨hany, hnever, hunion, hpicks, hwaits⟩ ?_)
      (Tidy.keeps_indexAccess _ _)
    simpa [Node.evaluatedParts, Node.components] using ⟨hobject.evaluated, hkey.evaluated⟩
  · exact tracked_fixed rfl

omit hi in
/-- An access that a member takes a place in. -/
theorem building_access (hobject : Resolved k s object) (hkey : Resolved k s key)
    (hN : toLex (3 * (k + 1), object.index + key.index + 1) ≤ N) :
    building.Holds s (Build.indexAccess object key) fun s' u => Smaller s' (k + 1) N u := by
  refine building_place (n := .indexAccess object key) (by simp [Node.focus])
    (within_access hobject.within hkey.within) ?_ (by simpa [Node.focus] using hN)
  simpa [Node.focus] using ⟨hobject.evaluated, hkey.evaluated⟩

variable (hN : toLex (3 * (k + 1), object.index + key.index) ≤ N)

include hN

omit hi in
/-- A member of the object takes the place of the object. -/
theorem building_memberAccess {members : List TypeId} (hobject : Resolved k s object)
    (hkey : Resolved k s key)
    (hn : s.node object = .union members ∨ s.node object = .intersection members) (hu : u ∈ members)
    (hs : s.Formed) :
    building.Holds s (Build.indexAccess u key) fun s' u => Smaller s' (k + 1) N u := by
  have hindex : u.index < object.index := index_lt_of_member hs hn hu
  refine building_access (hobject.member hn hu) hkey (le_trans ?_ hN)
  rw [Prod.Lex.toLex_le_toLex]
  dsimp only
  omega

theorem tracked_knownMembers {members : List TypeId} (hobject : Resolved k s object)
    (hkey : Resolved k s key) (hn : s.node object = .intersection members) :
    (tracked R active).Holds s (knownMembers inner members key) fun s' found =>
      ∀ r ∈ found, Resolved (k + 1) s' r := by
  refine (tracked R active).bind (tracked_members (fun h hr => hr.mono h) fun u hu s₁ h₁ => ?_)
    fun s₁ found _ _ hfound => (tracked R active).pure fun r hr => hfound r (List.mem_of_mem_filter hr)
  refine (tracked R active).formed fun hs₁ => ?_
  have hn₁ : s₁.node object = .intersection members := (hobject.closed.node_eq h₁).trans hn
  refine (tracked R active).bind (tracked_lift (building_memberAccess hN (hobject.mono h₁)
    (hkey.mono h₁) (.inr hn₁) hu hs₁) (Tidy.keeps_indexAccess _ _)) fun s₂ v h₂ _ hv => ?_
  exact (hi.mono (h₁.trans h₂)).smaller hv

theorem tracked_accessKey (hobject : Resolved k s object) (hkey : Resolved k s key)
    (hany : object ≠ .any) (hnever : key ≠ .never) (hunion : s.unionMembers? key = none) :
    (tracked R active).Holds s (accessKey inner t object key) (Resolved (k + 1)) := by
  cases hpicks : picks (s.node object) (s.node key) with
  | false =>
      intro hs htidy e he a e' s' hrun
      rw [accessKey_eq hpicks] at hrun
      exact tracked_deferAccess hobject hkey hany hnever hunion hpicks hs htidy e he a e' s' hrun
  | true =>
      refine tracked_store fun hs => ?_
      cases hn : s.node object with
      | union members =>
          refine tracked_perMember hi (fun t => Tidy.keeps_indexAccess t key) fun u hu s₁ h₁ hs₁ => ?_
          have hn₁ : s₁.node object = .union members := (hobject.closed.node_eq h₁).trans hn
          exact building_memberAccess hN (hobject.mono h₁) (hkey.mono h₁) (.inl hn₁) hu hs₁
      | intersection members =>
          refine (tracked R active).bind (tracked_knownMembers hi hN hobject hkey hn)
            fun s₁ found h₁ _ hfound => ?_
          split
          · exact tracked_fixed rfl
          · exact tracked_origin fun site => tracked_intersection hfound site
      | object shape =>
          rw [hn] at hpicks
          cases hk : s.node key with
          | literal value =>
              rw [hk] at hpicks
              cases value with
              | string name =>
                  exact (tracked R active).pure (resolved_fieldType hs hobject.succ hn name)
              | _ => cases hpicks
          | intrinsic kind =>
              rw [hk] at hpicks
              cases kind with
              | string =>
                  refine (tracked R active).pure ?_
                  cases hindex : shape.stringIndex with
                  | some u =>
                      exact kept_resolved.of_mem_object hobject.succ hn u (by simp [Node.components, hindex])
                  | none => exact .fixed hs rfl
              | _ => cases hpicks
          | _ =>
              rw [hk] at hpicks
              cases hpicks
      | array element =>
          have helement : Resolved (k + 1) s element :=
            kept_resolved.component hobject.succ (by rw [hn]; rfl) (by rw [hn]; simp [Node.components])
          rw [hn] at hpicks
          cases hk : s.node key with
          | literal value =>
              rw [hk] at hpicks
              cases value with
              | string name =>
                  dsimp only
                  split <;> exact tracked_fixed rfl
              | number _ => exact (tracked R active).pure helement
              | _ => cases hpicks
          | intrinsic kind =>
              rw [hk] at hpicks
              cases kind with
              | number => exact (tracked R active).pure helement
              | _ => cases hpicks
          | _ =>
              rw [hk] at hpicks
              cases hpicks
      | _ =>
          rw [hn] at hpicks
          cases hpicks

omit hN in
theorem tracked_indexAccess (hd : s.Descends k N (.indexAccess object key)) :
    (tracked R active).Holds s (Eval.indexAccess inner t object key) (Resolved (k + 1)) := by
  have hscopes := hd.work (by simp [Node.focus])
  obtain ⟨hobject, hkey⟩ : s.Within k object ∧ s.Within k key := by
    simpa [Node.scopes, Node.components] using hscopes
  refine (tracked R active).bind (hi.result (.refl s) hobject.closed
    (hobject.rank_lt.trans_le hi.room)) fun s₁ obj h₁ _ hobj => ?_
  refine (tracked R active).bind (hi.result h₁ (h₁.closed hkey.closed)
    ((hkey.mono h₁).rank_lt.trans_le hi.room)) fun s₂ ky h₂ _ hky => ?_
  have h₁₂ := h₁.trans h₂
  have hobj' := (hobj.1.mono h₂).resolved (hobject.mono h₁₂)
  have hky' := hky.1.resolved (hkey.mono h₁₂)
  have hN : toLex (3 * (k + 1), obj.index + ky.index) ≤ N := by
    have hfocus := hd.focus (by simp [Node.focus]) [obj, ky] (.cons (fun h => hobj.1.same (h.mono h₁))
      (.cons (fun h => hky.1.same (h.mono h₁₂)) .nil))
    simpa using hfocus
  have hi₂ := hi.mono h₁₂
  split
  · exact tracked_fixed rfl
  rename_i hany
  split
  · exact tracked_fixed rfl
  rename_i hnever
  refine tracked_node ?_
  split
  · rename_i keys hn
    refine tracked_perMember hi₂ (fun t => Tidy.keeps_indexAccess obj t) fun u hu s₃ h₃ hs₃ => ?_
    have hn₃ : s₃.node ky = .union keys := (hky'.closed.node_eq h₃).trans hn
    have hindex : u.index < ky.index := index_lt_of_member hs₃ (.inl hn₃) hu
    refine building_access (hobj'.mono h₃) ((hky'.mono h₃).member (.inl hn₃) hu)
      (le_trans ?_ hN)
    rw [Prod.Lex.toLex_le_toLex]
    dsimp only
    omega
  · rename_i hnone
    exact tracked_accessKey hi₂ hN hobj' hky' hany hnever (unionMembers?_eq_none_iff.mpr hnone)

end access

section texts

omit hi

theorem spelled_consSpan (span : Span) (spans : List Span) (texts : Option (List String)) :
    spelled s (Build.consSpan span spans) texts = spelled s (span :: spans) texts := by
  match span, spans with
  | .hole t, spans => rfl
  | .text a, .text b :: rest =>
      refine congrArg (spelled s rest) ?_
      cases texts <;> simp [String.append_assoc]
  | .text a, [] | .text a, .hole t :: rest =>
      by_cases ha : a = ""
      · subst ha
        cases texts <;> simp [Build.consSpan, spelled]
      · simp [Build.consSpan, ha]

/-- Joined spans spell the same texts. -/
theorem spelled_joinSpans (spans : List Span) (texts : Option (List String)) :
    spelled s (Build.joinSpans spans) texts = spelled s spans texts := by
  induction spans generalizing texts with
  | nil => rfl
  | cons span rest ih =>
      have hcons : Build.joinSpans (span :: rest) = Build.consSpan span (Build.joinSpans rest) := rfl
      rw [hcons, spelled_consSpan]
      cases span <;> exact ih _

/-- A template whose texts are not listed. -/
theorem building_template {spans : List Span}
    (hspans : ∀ t, .hole t ∈ spans → Resolved (k + 1) s t ∧ t ≠ .never)
    (hlisted : listed (spelled s spans (some [""])) = false) :
    building.Holds s (Build.template spans) (Resolved (k + 1)) := by
  have hjoined := Tidy.joined_joinSpans spans
  have hparts : ∀ t, .hole t ∈ Build.joinSpans spans → Resolved (k + 1) s t ∧ t ≠ .never :=
    fun t ht => hspans t (Build.hole_mem_of_mem_joinSpans ht)
  rw [← spelled_joinSpans] at hlisted
  have htext : ∀ text, building.Holds s (Build.stringLiteral text) (Resolved (k + 1)) := fun text =>
    building.mono (building_finished_text text) fun _ _ _ _ h => .finished h
  unfold Build.template
  split
  · exact htext ""
  · exact htext _
  · rename_i hnil htext
    generalize Build.joinSpans spans = joined at *
    have hcomponents : ∀ c ∈ (Node.template joined).components, Resolved (k + 1) s c := by
      intro c hc
      obtain ⟨span, hspan, hhole⟩ := List.mem_filterMap.mp hc
      cases span with
      | text a => cases hhole
      | hole u =>
          cases hhole
          exact (hparts c hspan).1
    have hscopes : ∀ x ∈ (Node.template joined).scopes, s.Within (k + 1) x.2 := by
      intro x hx
      obtain ⟨c, hc, rfl⟩ := List.mem_map.mp hx
      exact (hcomponents c hc).within
    refine building_rests (m := k + 1) (by simp) (by simp) (by simp) (fun _ => trivial) (.inr rfl)
      (.inr rfl) hscopes ⟨⟨Tidy.exists_hole hjoined hnil htext, hjoined⟩, ?_, hlisted⟩
      fun c hc => (hcomponents c hc).evaluated
    exact fun hnever => (hparts _ hnever).2 rfl

include hi

theorem tracked_evaluateSpans {spans : List Span}
    (hspans : ∀ t, .hole t ∈ spans → Smaller s (k + 1) N t) (texts : Option (List String)) :
    (tracked R active).Holds s (evaluateSpans inner spans texts) fun s' o => ∀ spans' texts',
      o = some (spans', texts') → (∀ t, .hole t ∈ spans' → Resolved (k + 1) s' t ∧ t ≠ .never) ∧
        texts' = spelled s' spans' texts := by
  induction spans generalizing s texts with
  | nil =>
      refine (tracked R active).pure ?_
      rintro _ _ ⟨⟩
      exact ⟨by simp, rfl⟩
  | cons span rest ih =>
      have hrest : ∀ t, .hole t ∈ rest → Smaller s (k + 1) N t := fun t ht =>
        hspans t (List.mem_cons_of_mem _ ht)
      cases span with
      | text a =>
          refine (tracked R active).bind (ih hi hrest _) fun s₁ o _ _ ho => (tracked R active).pure ?_
          intro spans' texts' h
          obtain ⟨⟨spans₁, texts₁⟩, rfl, h⟩ := Option.map_eq_some_iff.mp h
          cases h
          obtain ⟨hparts, htexts⟩ := ho _ _ rfl
          exact ⟨fun t ht => hparts t (by simpa using ht), htexts⟩
      | hole u =>
          refine (tracked R active).bind (hi.smaller (hspans u List.mem_cons_self))
            fun s₁ v h₁ _ hv => ?_
          split
          · exact (tracked R active).pure nofun
          rename_i hnever
          refine tracked_store fun _ => ?_
          refine (tracked R active).bind (ih (hi.mono h₁) (fun t ht => (hrest t ht).mono h₁) _)
            fun s₂ o h₂ _ ho => (tracked R active).pure ?_
          intro spans' texts' h
          obtain ⟨⟨spans₁, texts₁⟩, rfl, h⟩ := Option.map_eq_some_iff.mp h
          cases h
          obtain ⟨hparts, htexts⟩ := ho _ _ rfl
          refine ⟨fun t ht => ?_, ?_⟩
          · rcases List.mem_cons.mp ht with ht | ht
            · cases ht
              exact ⟨hv.mono h₂, hnever⟩
            · exact hparts t ht
          · rw [htexts]
            simp only [spelled, Template.literalTexts, Template.literalTextsAt_eq h₂ hv.closed]

theorem tracked_template {spans : List Span}
    (hspans : ∀ t, .hole t ∈ spans → Smaller s (k + 1) N t) :
    (tracked R active).Holds s (Eval.template inner spans) (Resolved (k + 1)) := by
  refine (tracked R active).bind (tracked_evaluateSpans hi hspans _) fun s₁ o _ _ ho => ?_
  cases o with
  | none => exact tracked_fixed rfl
  | some x =>
      obtain ⟨spans', texts⟩ := x
      obtain ⟨hparts, htexts⟩ := ho _ _ rfl
      have hkeep : listed texts = false → (tracked R active).Holds s₁
          (liftM (Build.template spans') : Eval TypeId) (Resolved (k + 1)) := fun hlisted =>
        tracked_lift (building_template hparts (htexts ▸ hlisted)) (Tidy.keeps_template spans')
      cases texts with
      | none => exact hkeep rfl
      | some texts =>
          dsimp only
          split
          · refine (tracked R active).bind (tracked_members (fun h hr => hr.mono h)
              fun text _ s₂ _ => tracked_lift (building_finished_text text)
                (Tidy.keeps_stringLiteral text)) fun s₂ rs _ _ hrs => ?_
            exact tracked_union fun r hr => .finished (hrs r hr)
          · rename_i hlong
            exact hkeep (by simpa [listed] using hlong)

theorem tracked_stringMap {kind : StringMap} {arg : TypeId}
    (hd : s.Descends k N (.stringMap kind arg)) :
    (tracked R active).Holds s (Eval.stringMap inner kind arg) (Resolved (k + 1)) := by
  have harg : s.Within k arg := by
    simpa [Node.scopes, Node.components] using hd.work (by simp [Node.focus])
  have hscopes : ∀ {s₁ : Store} {u : TypeId}, s₁.Within k u →
      ∀ x ∈ (Node.stringMap kind u).scopes, s₁.Within k x.2 := by
    intro s₁ u hu
    simpa [Node.scopes, Node.components] using hu
  refine (tracked R active).bind (hi.result (.refl s) harg.closed (harg.rank_lt.trans_le hi.room))
    fun s₁ v h₁ _ hv => ?_
  have hresult := hv.1
  have hv := hresult.resolved (harg.mono h₁)
  refine tracked_node ?_
  split
  · exact tracked_lift (building.mono (building_finished_text _) fun _ _ _ _ h => .finished h)
      (Tidy.keeps_stringLiteral _)
  · rename_i members hn
    exact tracked_perMember (hi.mono h₁) (fun t => Tidy.keeps_stringMap kind t)
      fun u hu s₂ h₂ hs₂ => building_member hd rfl h₁ hresult hv hn hu h₂ hs₂ rfl hscopes
  · rename_i hliteral hunion
    split
    · exact (tracked R active).pure hv.succ
    · rename_i hplain
      simp only [Bool.or_eq_true, decide_eq_true_eq, not_or] at hplain
      refine tracked_lift (building_waits (n := .stringMap kind v) (by simp [Node.focus])
        (hscopes hv.within) ⟨hplain.1, hplain.2, ?_, ?_⟩ ?_) (Tidy.keeps_stringMap _ _)
      · exact unionMembers?_eq_none_iff.mpr hunion
      · exact stringLiteral?_eq_none hliteral
      · simpa [Node.evaluatedParts, Node.components] using hv.evaluated

end texts

end rules

end Context

end TypeResolution
