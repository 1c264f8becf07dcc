import TypeResolution.Proofs.Evaluated.Again

/-!
Without aliases, an evaluation that hits no limit meets no type again while it is under evaluation:
whatever is to be evaluated on the way has less work to do. What a type evaluates to is evaluated.
-/

namespace TypeResolution

open Store Replay Eval

/-- The parts of a node at which there is no work rank below it. -/
theorem Smaller.of_descends {s : Store} {k : ℕ} {N : ℕ ×ₗ ℕ} {n : Node} (hd : s.Descends k N n)
    (hn : n.isStructural) {c : TypeId} (hc : c ∈ n.components) : Smaller s (k + 1) N c := by
  have hfocus : n.focus = [] := by
    cases n <;> first | rfl | cases hn
  obtain ⟨hwithin, hrank⟩ := hd.plain hfocus ([], c)
    (by rw [Node.scopes_of_structural hn]; exact List.mem_map_of_mem hc)
  exact ⟨hwithin, hrank⟩

namespace Context

variable {R : Ending} {active : List TypeId} {s s' : Store} {t r u : TypeId} {k : ℕ} {N : ℕ ×ₗ ℕ}
  {e e' : Evaluator} {inner : TypeId → Eval TypeId}

section nodes

variable (hi : Evaluating R active k N s inner)

include hi

theorem tracked_parts {ts : List TypeId} (hts : ∀ t ∈ ts, Smaller s (k + 1) N t) :
    (tracked R active).Holds s (ts.mapM inner) fun s' rs => ∀ r ∈ rs, Resolved (k + 1) s' r :=
  tracked_members (fun h hr => hr.mono h) fun t ht _ h₁ => (hi.mono h₁).smaller ((hts t ht).mono h₁)

theorem tracked_object {shape : ObjectShape} (ht : s.Closed AnyName t) (hn : s.node t = .object shape)
    (hd : s.Descends k N (.object shape)) :
    (tracked R active).Holds s (Eval.object inner t shape) (Resolved (k + 1)) := by
  have hpart : ∀ c ∈ (Node.object shape).components, Smaller s (k + 1) N c := fun c hc =>
    .of_descends hd rfl hc
  refine tracked_tidy fun htidy => ?_
  have hnames : (shape.fields.map (·.name)).Nodup := by
    have h := htidy t
    rwa [hn] at h
  have hfields : (tracked R active).Holds s
      (shape.fields.mapM fun f => return { f with type := ← inner f.type }) fun s' fields =>
      List.Forall₂ (fun f (g : Field) => g.name = f.name ∧ Resolved (k + 1) s' g.type)
        shape.fields fields := by
    refine (tracked R active).mapM (fun h hg => ⟨hg.1, hg.2.mono h⟩) fun f hf s₁ h₁ _ => ?_
    have hf := (hpart f.type (List.mem_append_left _ (List.mem_map_of_mem hf))).mono h₁
    exact (tracked R active).bind ((hi.mono h₁).smaller hf) fun s₂ u _ _ hu =>
      (tracked R active).pure ⟨rfl, hu⟩
  refine (tracked R active).bind hfields fun s₁ fields h₁ _ hfields => ?_
  have hindex : (tracked R active).Holds s₁ (shape.stringIndex.mapM inner) fun s' index =>
      ∀ u, index = some u → Resolved (k + 1) s' u := by
    cases h : shape.stringIndex with
    | none => exact (tracked R active).pure nofun
    | some u =>
        have hu : Smaller s (k + 1) N u := hpart u (by simp [Node.components, h])
        refine (tracked R active).bind ((hi.mono h₁).smaller (hu.mono h₁)) fun s₂ v _ _ hv =>
          (tracked R active).pure ?_
        rintro _ ⟨⟩
        exact hv
  refine (tracked R active).bind hindex fun s₂ index h₂ _ hindex => ?_
  have h₁₂ := h₁.trans h₂
  have hkept : fields.map (·.name) = shape.fields.map (·.name) := by
    generalize shape.fields = old at hfields
    induction hfields with
    | nil => rfl
    | cons h _ ih => rw [List.map_cons, List.map_cons, h.1, ih]
  refine tracked_lift (kept_resolved.rebuildObject (h₁₂.closed ht).known ((ht.node_eq h₁₂).trans hn) ?_)
    (Tidy.keeps_rebuildObject (hkept ▸ hnames))
  intro c hc
  simp only [Node.components, List.mem_append, List.mem_map, Option.mem_toList] at hc
  rcases hc with ⟨f, hf, rfl⟩ | hc
  · exact (forall_right_of_forall₂ hfields (fun _ _ h => h.2) f hf).mono h₂
  · exact hindex c hc

theorem tracked_function {shape : FunctionShape} (hd : s.Descends k N (.function shape)) :
    (tracked R active).Holds s (Eval.function inner shape) (Resolved (k + 1)) := by
  have hparts : ∀ c ∈ (Node.function shape).components, Smaller s (k + 1) N c := fun c hc =>
    .of_descends hd rfl hc
  simp only [Node.components, List.mem_append, List.mem_singleton] at hparts
  refine (tracked R active).bind (tracked_parts hi fun u hu => hparts u (.inl hu))
    fun s₁ params h₁ _ hparams => ?_
  refine (tracked R active).bind ((hi.mono h₁).smaller ((hparts _ (.inr rfl)).mono h₁))
    fun s₂ result h₂ _ hresult => ?_
  refine tracked_lift (kept_resolved.intern rfl (by simp) (fun c hc => ?_) fun _ _ _ => trivial)
    (Tidy.keeps_function params result)
  simp only [Node.components, List.mem_append, List.mem_singleton] at hc
  rcases hc with hc | rfl
  · exact (hparams c hc).mono h₂
  · exact hresult

/-- Every kind of node with work of limited depth evaluates to an evaluated type. -/
theorem tracked_at_node (ht : s.Within (k + 1) t) (hd : s.Descends k N (s.node t))
    (hsearched : ∀ c, s.node t = .conditional c → ∀ u, R.evaluator.cache[c.check]? = some u →
      ∀ s₁, s.Extends s₁ → (c.distributive → s₁.unionMembers? u = none) → s₁.Searched u) :
    (tracked R active).Holds s (node inner ⟨.empty, R.options⟩ t (s.node t)) (Resolved (k + 1)) := by
  have hself : (s.node t).InForm s → (s.node t).Rests s → (s.node t).evaluatedParts = [] →
      (tracked R active).Holds s (pure t) (Resolved (k + 1)) := fun hform hrests hnone => by
    refine (tracked R active).pure ⟨.of_rests ht.closed rfl hform hrests ?_, ht⟩
    rw [hnone]
    exact nofun
  cases hn : s.node t with
  | error | intrinsic _ | literal _ | param _ =>
      rw [hn] at hself
      exact hself trivial trivial rfl
  | union members =>
      rw [hn] at hd
      refine (tracked R active).bind (tracked_parts hi fun u hu => .of_descends hd rfl hu)
        fun s₁ us _ _ hus => tracked_union hus
  | intersection members =>
      rw [hn] at hd
      refine (tracked R active).bind (tracked_parts hi fun u hu => .of_descends hd rfl hu)
        fun s₁ us _ _ hus => ?_
      exact tracked_origin fun site => tracked_intersection hus site
  | object shape => exact tracked_productively (tracked_object hi ht.closed hn (hn ▸ hd))
  | function shape => exact tracked_productively (tracked_function hi (hn ▸ hd))
  | array element =>
      rw [hn] at hd
      have helement : Smaller s (k + 1) N element := .of_descends hd rfl (by simp [Node.components])
      refine (tracked R active).bind (tracked_productively (hi.smaller helement))
        fun s₁ u _ _ hu => ?_
      refine tracked_lift (kept_resolved.intern rfl (by simp) ?_ fun _ _ _ => trivial)
        (Tidy.keeps_array u)
      simpa [Node.components] using hu
  | reference name args =>
      exact tracked_origin fun site => tracked_report (reports_report _) fun _ => tracked_fixed rfl
  | conditional c => exact tracked_conditional hi (hn ▸ hd) (hsearched c hn)
  | mapped m => exact tracked_mapped hi (hn ▸ hd)
  | indexAccess object key => exact tracked_indexAccess hi (hn ▸ hd)
  | template spans =>
      rw [hn] at hd
      refine tracked_template hi fun u hu => ?_
      obtain ⟨hwithin, hrank⟩ := hd.plain rfl ([], u)
        (List.mem_map_of_mem (List.mem_filterMap.mpr ⟨_, hu, rfl⟩))
      exact ⟨hwithin, hrank⟩
  | stringMap kind arg => exact tracked_stringMap hi (hn ▸ hd)

end nodes

end Context

end TypeResolution
