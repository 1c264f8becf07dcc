import TypeResolution.Proofs.Outcomes
import TypeResolution.Proofs.Store.Instantiation
import TypeResolution.Proofs.Store.Occurrence

/-!
The walk of a substitution. What it makes of a node is made of what it makes of the components, under
the names that are bound around them, and of the types that are put in the place of parameters. So
what such parts carry over to the node, a walk carries over from one type to another.
-/

namespace TypeResolution

open Store

namespace Node

theorem mem_scopes_of_identity_eq {m n : Node} (h : m.identity = n.identity)
    (x : List String × TypeId) : x ∈ m.scopes ↔ x ∈ n.scopes := by
  rcases eq_or_objects_of_identity_eq h with rfl | ⟨a, b, rfl, rfl, -⟩
  · exact Iff.rfl
  · simp only [scopes, List.mem_map, mem_components_of_identity_eq h]

theorem exists_scope {n : Node} (hn : ∀ info, n ≠ .param info) {c : TypeId}
    (hc : c ∈ n.components) : ∃ names, (names, c) ∈ n.scopes := by
  cases n with
  | param info => exact absurd rfl (hn info)
  | conditional d =>
      simp only [components, List.mem_cons, List.not_mem_nil, or_false] at hc
      rcases hc with rfl | rfl | rfl | rfl
      · exact ⟨[], by simp [scopes]⟩
      · exact ⟨d.infer, by simp [scopes]⟩
      · exact ⟨d.infer, by simp [scopes]⟩
      · exact ⟨[], by simp [scopes]⟩
  | mapped m =>
      rcases List.mem_cons.mp hc with rfl | hc
      · exact ⟨[], List.mem_cons_self ..⟩
      · exact ⟨[m.keyParam], List.mem_cons_of_mem _ (List.mem_map_of_mem hc)⟩
  | _ => exact ⟨[], List.mem_map_of_mem hc⟩

/-- The components that decide what is done when the node is evaluated. -/
def focus : Node → List TypeId
  | .conditional c => [c.check]
  | .mapped m => [m.source]
  | .indexAccess obj key => [obj, key]
  | .stringMap _ arg => [arg]
  | _ => []

end Node

namespace Instantiation

/-- What a walk remembers: `R` holds of each type and its result. -/
def remembering (R : Store → TypeId → TypeId → Prop) : Outcomes Instantiating where
  Holds s walk Q := ∀ cache : Std.HashMap TypeId TypeId,
    (∀ t r : TypeId, cache[t]? = some r → R s t r) →
    building.Holds s (walk cache) fun s' a =>
      (∀ t r : TypeId, a.2[t]? = some r → R s' t r) ∧ Q s' a.1
  pure h _ hcache := building.pure ⟨hcache, h⟩
  bind hm hf cache hcache := building.bind (hm cache hcache) fun s₁ a h₁ hs₁ ha =>
    hf s₁ a.1 h₁ hs₁ ha.2 a.2 ha.1
  formed h cache hcache := building.formed fun hs => h hs cache hcache

/-- What walks carry over. `F` holds of the substitutions, `V` of the types that they put in, `K₁` of
what is made of the components of a node, below the names that are bound around them, and `K` of what
is made of the node. If there is `work` at the node, its parts may count for less than the node. -/
structure Carries (R : Store → TypeId → TypeId → Prop) (F : Store → Substitution → Prop)
    (V : Store → TypeId → Prop) (work : Prop) (K₁ K : List String → Store → TypeId → Prop) : Prop where
  remembered {s s' : Store} {t r : TypeId} : s.Extends s' → R s t r → R s' t r
  fills {s s' : Store} {σ : Substitution} : s.Extends s' → F s σ → F s' σ
  insert {s : Store} {σ : Substitution} {u : TypeId} (name : String) : F s σ → V s u →
    F s (σ.insert name u)
  put {s : Store} {σ : Substitution} {name : String} {u : TypeId} : F s σ → σ.get? name = some u → V s u
  value {s s' : Store} {u : TypeId} : s.Extends s' → V s u → V s' u
  member {s : Store} {u m : TypeId} {members : List TypeId} : V s u → s.node u = .union members →
    m ∈ members → V s m
  part {s s' : Store} {shadowed : List String} {t : TypeId} : s.Extends s' → K₁ shadowed s t →
    K₁ shadowed s' t
  mono {s s' : Store} {shadowed : List String} {t : TypeId} : s.Extends s' → K shadowed s t →
    K shadowed s' t
  of_part {s : Store} {shadowed : List String} {t : TypeId} : K₁ shadowed s t → K shadowed s t
  leaf {s : Store} {shadowed : List String} {t : TypeId} : s.Formed → t.index < s.size →
    (∀ info, s.node t ≠ .param info) → (s.node t).components = [] → K shadowed s t
  param {s : Store} {σ : Substitution} {shadowed : List String} {t : TypeId} {info : TypeParam} :
    s.Formed → t.index < s.size → s.node t = .param info → F s σ →
    K shadowed s ((lookup? σ shadowed info.name).getD t)
  intern {s : Store} {shadowed : List String} {n : Node} : (∀ info, n ≠ .param info) →
    (work ∨ n.focus = []) → (∀ x ∈ n.scopes, K₁ (shadowed ++ x.1) s x.2) →
    building.Holds s (Build.intern n) (K shadowed)
  union {s : Store} {shadowed : List String} {ts : List TypeId} : (∀ t ∈ ts, K shadowed s t) →
    building.Holds s (Build.intern (.union ts)) (K shadowed)

section walks

variable {R : Store → TypeId → TypeId → Prop} {s : Store} {α β γ : Type} {Q : Store → α → Prop}
  {Q' : Store → β → Prop}

theorem remembering_store {f : Store → Instantiating β} (h : (remembering R).Holds s (f s) Q') :
    (remembering R).Holds s (getThe Store >>= f) Q' :=
  h

theorem remembering_node {t : TypeId} {f : Node → Instantiating β}
    (h : (remembering R).Holds s (f (s.node t)) Q') :
    (remembering R).Holds s (Build.node t >>= f) Q' :=
  h

theorem remembering_mapM {l : List β} {f : β → Instantiating γ} {K : Store → γ → Prop}
    (hK : ∀ {s₁ s₂ c}, s₁.Extends s₂ → K s₁ c → K s₂ c)
    (h : ∀ b ∈ l, ∀ s₁, s.Extends s₁ → (remembering R).Holds s₁ (f b) K) :
    (remembering R).Holds s (l.mapM f) fun s' cs => ∀ c ∈ cs, K s' c := by
  refine (remembering R).mono ((remembering R).mapM (P := fun s' _ c => K s' c) hK
    fun b hb s₁ h₁ _ => h b hb s₁ h₁) fun s' cs _ _ hcs => ?_
  exact forall_right_of_forall₂ hcs fun _ _ hc => hc

theorem remembering_optionMapM {o : Option β} {f : β → Instantiating γ} {K : Store → γ → Prop}
    (h : ∀ b ∈ o.toList, (remembering R).Holds s (f b) K) :
    (remembering R).Holds s (o.mapM f) fun s' r => ∀ c ∈ r.toList, K s' c := by
  cases o with
  | none => exact (remembering R).pure (by simp)
  | some b =>
      rw [Option.mapM_some, map_eq_pure_bind]
      exact (remembering R).bind (h b (by simp)) fun s₁ c _ _ hc =>
        (remembering R).pure (by simpa using hc)

/-- What a walk remembers is asked first, and a fixed type stays as it is. -/
theorem remembering_asked {shadowed : List String} {t : TypeId} {step : Instantiating TypeId}
    {Q : Store → TypeId → Prop} (hfixed : t.isFixed → Q s t)
    (hknown : shadowed.isEmpty → ∀ r, R s t r → Q s r)
    (h : t.isFixed = false → (remembering R).Holds s step Q) :
    (remembering R).Holds s (do
      if t.isFixed then
        return t
      if shadowed.isEmpty then
        if let some known := (← get)[t]? then
          return known
      step) Q := by
  split
  · exact (remembering R).pure (hfixed ‹_›)
  rename_i hnew
  have hstep := h (by simpa using hnew)
  split
  · rename_i hshadowed
    intro cache hcache
    have hget : ∀ f : Std.HashMap TypeId TypeId → Instantiating TypeId,
        (get >>= f) cache = f cache cache := fun _ => rfl
    dsimp only
    rw [hget]
    cases hr : cache[t]? with
    | none => exact hstep cache hcache
    | some r => exact building.pure ⟨hcache, hknown hshadowed r (hcache t r hr)⟩
  · exact hstep

/-- What a walk gives under no binder is remembered. -/
theorem remembering_added {shadowed : List String} {t : TypeId} {step : Instantiating TypeId}
    {Q : Store → TypeId → Prop} (h : (remembering R).Holds s step Q)
    (hR : shadowed.isEmpty → ∀ s₁ r, s.Extends s₁ → Q s₁ r → R s₁ t r) :
    (remembering R).Holds s (do
      let result ← step
      if shadowed.isEmpty then
        modify (·.insert t result)
      return result) Q := by
  refine (remembering R).bind h fun s₁ result h₁ _ hresult => ?_
  split
  · rename_i hshadowed
    intro cache hcache
    refine building.pure (a := (result, cache.insert t result)) ⟨fun u r hr => ?_, hresult⟩
    rw [Std.HashMap.getElem?_insert] at hr
    split at hr
    · rename_i heq
      cases hr
      exact eq_of_beq heq ▸ hR hshadowed s₁ _ h₁ hresult
    · exact hcache u r hr
  · exact (remembering R).pure hresult

variable (hR : ∀ {s s' : Store} {t r : TypeId}, s.Extends s' → R s t r → R s' t r)

include hR

theorem remembering_lift {m : Build α} (hm : building.Holds s m Q) :
    (remembering R).Holds s (liftM m) Q := by
  intro cache hcache
  refine building.bind (f := fun a => pure (a, cache)) hm fun s₁ a h _ ha => ?_
  exact building.pure ⟨fun t r hr => hR h (hcache t r hr), ha⟩

/-- A walk apart remembers nothing for the walks after it. -/
theorem remembering_apart {walk : Instantiating α} (h : (remembering R).Holds s walk Q) :
    (remembering R).Holds s (apart walk) Q := by
  intro cache hcache
  refine building.bind (h ∅ fun t r hr => by simp at hr) fun s₁ a h₁ _ ha => ?_
  exact building.pure ⟨fun t r hr => hR h₁ (hcache t r hr), ha.2⟩

end walks

/-- From a store on, `K₁` holds of what is made of a component. -/
def Puts (R : Store → TypeId → TypeId → Prop) (F : Store → Substitution → Prop)
    (K₁ : List String → Store → TypeId → Prop) (s : Store) (inner : Inner) (shadowed : List String)
    (x : List String × TypeId) : Prop :=
  ∀ s₁, s.Extends s₁ → ∀ σ, F s₁ σ →
    (remembering R).Holds s₁ (inner σ (shadowed ++ x.1) x.2) (K₁ (shadowed ++ x.1))

theorem Puts.mono {R : Store → TypeId → TypeId → Prop} {F : Store → Substitution → Prop}
    {K₁ : List String → Store → TypeId → Prop} {s s' : Store} {inner : Inner} {shadowed : List String}
    {x : List String × TypeId} (h : s.Extends s') (hx : Puts R F K₁ s inner shadowed x) :
    Puts R F K₁ s' inner shadowed x :=
  fun s₁ h₁ => hx s₁ (h.trans h₁)

theorem Puts.component {R : Store → TypeId → TypeId → Prop} {F : Store → Substitution → Prop}
    {K₁ : List String → Store → TypeId → Prop} {s s' : Store} {inner : Inner} {shadowed : List String}
    {σ : Substitution} {c : TypeId} (hc : Puts R F K₁ s inner shadowed ([], c)) (h : s.Extends s')
    (hσ : F s' σ) : (remembering R).Holds s' (inner σ shadowed c) (K₁ shadowed) := by
  simpa using hc s' h σ hσ

namespace Carries

variable {R : Store → TypeId → TypeId → Prop} {F : Store → Substitution → Prop}
  {V : Store → TypeId → Prop} {work : Prop} {K₁ K : List String → Store → TypeId → Prop}
  {s s' : Store} {t : TypeId} {σ : Substitution} {inner : Inner} {shadowed : List String}

variable (C : Carries R F V work K₁ K)

include C

theorem lift {α : Type} {m : Build α} {Q : Store → α → Prop} (hm : building.Holds s m Q) :
    (remembering R).Holds s (liftM m) Q :=
  remembering_lift (R := R) C.remembered hm

section builders

variable {ts : List TypeId}

theorem fixed (hs : s.Formed) (ht : t.isFixed) : K shadowed s t := by
  have hnode : (∀ info, s.node t ≠ .param info) ∧ (s.node t).components = [] := by
    rcases hs.node_of_isFixed ht with hn | ⟨k, hn⟩ | ⟨b, hn⟩ <;> simp [hn, Node.components]
  exact C.leaf hs (hs.known_of_isFixed ht) hnode.1 hnode.2

/-- A node that binds nothing. -/
theorem plain {n : Node} (hn : ∀ info, n ≠ .param info) (hwork : work ∨ n.focus = [])
    (hscopes : n.scopes = n.components.map ([], ·)) (hparts : ∀ c ∈ n.components, K₁ shadowed s c) :
    building.Holds s (Build.intern n) (K shadowed) := by
  apply C.intern hn hwork
  rw [hscopes]
  intro x hx
  obtain ⟨c, hc, rfl⟩ := List.mem_map.mp hx
  rw [List.append_nil]
  exact hparts c hc

theorem members {none : TypeId} {node : List TypeId → Node} (hnone : none.isFixed)
    (hts : ∀ t ∈ ts, K shadowed s t)
    (hnode : ∀ us, us ⊆ ts → building.Holds s (Build.intern (node us)) (K shadowed)) :
    building.Holds s (do Build.ofMembers none node (← Build.inOrder ts)) (K shadowed) := by
  refine building.formed fun hs => building_members ?_
  have hsorted : TypeId.sortUnique s.numbers ts ⊆ ts := fun _ ht => TypeId.mem_sortUnique.mp ht
  generalize TypeId.sortUnique s.numbers ts = us at hsorted
  rcases us with _ | ⟨t, _ | ⟨u, rest⟩⟩
  · exact building.pure (C.fixed hs hnone)
  · exact building.pure (hts t (hsorted (List.mem_singleton_self t)))
  · exact hnode _ hsorted

theorem rawUnion (hts : ∀ t ∈ ts, K shadowed s t) :
    building.Holds s (Build.rawUnion ts) (K shadowed) :=
  C.members rfl hts fun _ hus => C.union fun t ht => hts t (hus ht)

theorem rawIntersection (hts : ∀ t ∈ ts, K₁ shadowed s t) :
    building.Holds s (Build.rawIntersection ts) (K shadowed) :=
  C.members rfl (fun t ht => C.of_part (hts t ht)) fun _ hus =>
    C.plain (by simp) (.inr rfl) rfl fun t ht => hts t (hus ht)

theorem template {spans : List Span} (h : ∀ t, .hole t ∈ spans → K₁ shadowed s t) :
    building.Holds s (Build.template spans) (K shadowed) := by
  have hjoin : ∀ t, Span.hole t ∈ Build.joinSpans spans → K₁ shadowed s t :=
    fun t ht => h t (Build.hole_mem_of_mem_joinSpans ht)
  have htext : ∀ text, building.Holds s (Build.stringLiteral text) (K shadowed) := by
    intro text
    apply C.plain (by simp) (.inr rfl) rfl
    intro c hc
    cases hc
  unfold Build.template
  generalize Build.joinSpans spans = l at hjoin
  have hnode : building.Holds s (Build.intern (.template l)) (K shadowed) := by
    apply C.plain (by simp) (.inr rfl) rfl
    intro c hc
    obtain ⟨span, hspan, hc⟩ := List.mem_filterMap.mp hc
    cases span with
    | text a => cases hc
    | hole u =>
        cases hc
        exact hjoin c hspan
  rcases l with _ | ⟨_ | u, _ | ⟨b, rest⟩⟩
  · exact htext ""
  · exact htext _
  · exact hnode
  · exact hnode
  · exact hnode

end builders

theorem value_of_replacement (hσ : F s σ) {name : String} {u : TypeId}
    (h : replacement? s σ shadowed t = some (name, u)) : V s u := by
  unfold replacement? at h
  split at h
  · obtain ⟨v, hv, heq⟩ := Option.map_eq_some_iff.mp h
    cases heq
    unfold lookup? at hv
    split at hv
    · cases hv
    · exact C.put hσ hv
  · cases h

theorem conditionalParts {c : Conditional} (hwork : work) (hσ : F s σ)
    (h : ∀ x ∈ (Node.conditional c).scopes, Puts R F K₁ s inner shadowed x) :
    (remembering R).Holds s (conditionalParts inner σ shadowed c) (K shadowed) := by
  have hcheck : Puts R F K₁ s inner shadowed ([], c.check) := h _ (by simp [Node.scopes])
  have hpattern : Puts R F K₁ s inner shadowed (c.infer, c.pattern) := h _ (by simp [Node.scopes])
  have hwhenTrue : Puts R F K₁ s inner shadowed (c.infer, c.whenTrue) := h _ (by simp [Node.scopes])
  have hwhenFalse : Puts R F K₁ s inner shadowed ([], c.whenFalse) := h _ (by simp [Node.scopes])
  refine (remembering R).bind (Puts.component hcheck (.refl s) hσ) fun s₁ check h₁ _ hcheck => ?_
  refine (remembering R).bind (hpattern s₁ h₁ σ (C.fills h₁ hσ)) fun s₂ pattern h₂ _ hpattern => ?_
  have h₁₂ := h₁.trans h₂
  refine (remembering R).bind (hwhenTrue s₂ h₁₂ σ (C.fills h₁₂ hσ))
    fun s₃ whenTrue h₃ _ hwhenTrue => ?_
  have h₁₃ := h₁₂.trans h₃
  refine (remembering R).bind (Puts.component hwhenFalse h₁₃ (C.fills h₁₃ hσ))
    fun s₄ whenFalse h₄ _ hwhenFalse => ?_
  have h₂₄ := h₃.trans h₄
  apply C.lift
  apply C.intern (by simp) (.inl hwork)
  simp only [Node.scopes, List.forall_mem_cons, List.append_nil]
  exact ⟨C.part (h₂.trans h₂₄) hcheck, hwhenFalse, C.part h₂₄ hpattern, C.part h₄ hwhenTrue, by simp⟩

theorem mappedParts {m : Mapped} (hwork : work) (hσ : F s σ)
    (h : ∀ x ∈ (Node.mapped m).scopes, Puts R F K₁ s inner shadowed x) :
    (remembering R).Holds s (mappedParts inner σ shadowed m) (K shadowed) := by
  obtain ⟨hsource, hwithin⟩ := List.forall_mem_cons.mp h
  rw [List.forall_mem_map] at hwithin
  have hpart : ∀ c ∈ m.keyFilter.toList ++ m.template :: m.nameType.toList, ∀ s₁, s.Extends s₁ →
      (remembering R).Holds s₁ (inner σ (shadowed ++ [m.keyParam]) c)
        (K₁ (shadowed ++ [m.keyParam])) :=
    fun c hc s₁ h₁ => hwithin c hc s₁ h₁ σ (C.fills h₁ hσ)
  refine (remembering R).bind (Puts.component hsource (.refl s) hσ) fun s₁ source h₁ _ hsource => ?_
  refine (remembering R).bind (remembering_optionMapM fun c hc => hpart c (by simp_all) s₁ h₁)
    fun s₂ keyFilter h₂ _ hkeyFilter => ?_
  have h₁₂ := h₁.trans h₂
  refine (remembering R).bind (hpart m.template (by simp) s₂ h₁₂)
    fun s₃ template h₃ _ htemplate => ?_
  have h₁₃ := h₁₂.trans h₃
  refine (remembering R).bind (remembering_optionMapM fun c hc => hpart c (by simp_all) s₃ h₁₃)
    fun s₄ nameType h₄ _ hnameType => ?_
  have h₂₄ := h₃.trans h₄
  apply C.lift
  apply C.intern (by simp) (.inl hwork)
  simp only [Node.scopes, List.forall_mem_cons, List.append_nil, List.forall_mem_map,
    List.forall_mem_append]
  exact ⟨C.part (h₂.trans h₂₄) hsource, fun c hc => C.part h₂₄ (hkeyFilter c hc),
    C.part h₄ htemplate, hnameType⟩

theorem perMember {parts : Substitution → Instantiating TypeId} {name : String}
    {members : List TypeId} (hσ : F s σ) (hmembers : ∀ m ∈ members, V s m)
    (hparts : ∀ s₁, s.Extends s₁ → ∀ σ, F s₁ σ → (remembering R).Holds s₁ (parts σ) (K shadowed)) :
    (remembering R).Holds s (perMember name members σ parts) (K shadowed) := by
  refine (remembering R).bind (remembering_mapM (K := K shadowed) C.mono fun m hm s₁ h₁ => ?_)
    fun s₁ results _ _ hresults => C.lift (C.rawUnion hresults)
  apply remembering_apart (R := R) C.remembered
  exact hparts s₁ h₁ _ (C.insert name (C.fills h₁ hσ) (C.value h₁ (hmembers m hm)))

theorem conditional {c : Conditional} (hwork : work) (hσ : F s σ)
    (h : ∀ x ∈ (Node.conditional c).scopes, Puts R F K₁ s inner shadowed x) :
    (remembering R).Holds s (conditional inner σ shadowed c) (K shadowed) := by
  refine (remembering R).formed fun hs => ?_
  apply remembering_store
  have hparts := C.conditionalParts hwork hσ h
  cases hr : if c.distributive then replacement? s σ shadowed c.check else none with
  | none => exact hparts
  | some found =>
      -- the whole is walked once for each member of the union that is put in
      obtain ⟨name, u⟩ := found
      have hu : V s u := by
        split at hr
        · exact C.value_of_replacement hσ hr
        · cases hr
      dsimp only
      split
      · exact (remembering R).pure (C.fixed hs rfl)
      · cases hn : s.node u with
        | union members =>
            apply C.perMember hσ fun m hm => C.member hu hn hm
            intro s₁ h₁ σ hσ
            exact C.conditionalParts hwork hσ fun x hx => Puts.mono h₁ (h x hx)
        | _ => exact hparts

theorem mapped {m : Mapped} (hwork : work) (hσ : F s σ)
    (h : ∀ x ∈ (Node.mapped m).scopes, Puts R F K₁ s inner shadowed x) :
    (remembering R).Holds s (mapped inner σ shadowed m) (K shadowed) := by
  apply remembering_store
  have hparts := C.mappedParts hwork hσ h
  cases hr : replacement? s σ shadowed m.source with
  | none => exact hparts
  | some found =>
      obtain ⟨name, u⟩ := found
      have hu := C.value_of_replacement hσ hr
      cases hn : s.node u with
      | union members =>
          simp only [hn]
          apply C.perMember hσ fun m hm => C.member hu hn hm
          intro s₁ h₁ σ hσ
          exact C.mappedParts hwork hσ fun x hx => Puts.mono h₁ (h x hx)
      | _ =>
          simp only [hn]
          exact hparts

section plain

variable {cs : List TypeId}

theorem list (hσ : F s σ) (h : ∀ c ∈ cs, Puts R F K₁ s inner shadowed ([], c)) :
    (remembering R).Holds s (cs.mapM (inner σ shadowed)) fun s' rs => ∀ r ∈ rs, K₁ shadowed s' r :=
  remembering_mapM (K := K₁ shadowed) C.part fun c hc _ h₁ => Puts.component (h c hc) h₁ (C.fills h₁ hσ)

theorem object {shape : ObjectShape} (hσ : F s σ)
    (h : ∀ c ∈ (Node.object shape).components, Puts R F K₁ s inner shadowed ([], c)) :
    (remembering R).Holds s (node inner σ shadowed t (.object shape)) (K shadowed) := by
  have hfield : ∀ f ∈ shape.fields, ∀ s₁, s.Extends s₁ → (remembering R).Holds s₁
      (do return { f with type := ← inner σ shadowed f.type } : Instantiating Field)
      fun s' g => K₁ shadowed s' g.type := by
    intro f hf s₁ h₁
    have htype := h f.type (List.mem_append_left _ (List.mem_map_of_mem hf))
    exact (remembering R).bind (Puts.component htype h₁ (C.fills h₁ hσ)) fun s₂ r _ _ hr =>
      (remembering R).pure hr
  refine (remembering R).bind (remembering_mapM (K := fun s' (g : Field) => K₁ shadowed s' g.type)
    C.part hfield) fun s₁ fields h₁ _ hfields => ?_
  refine (remembering R).bind (remembering_optionMapM fun c hc =>
    Puts.component (h c (List.mem_append_right _ hc)) h₁ (C.fills h₁ hσ))
    fun s₂ index h₂ _ hindex => ?_
  have hobject : building.Holds s₂ (Build.object ⟨fields, index⟩) (K shadowed) := by
    apply C.plain (by simp) (.inr rfl) rfl
    intro c hc
    rcases List.mem_append.mp hc with hc | hc
    · obtain ⟨f, hf, rfl⟩ := List.mem_map.mp hc
      exact C.part h₂ (hfields f hf)
    · exact hindex c hc
  refine (remembering R).bind (C.lift hobject) fun s₃ r _ _ hr => ?_
  have hcopy : building.Holds s₃ (Build.copyFieldOrigins t r (fields.map (·.name)))
      fun _ _ => True := building_quiet (alike_copyFieldOrigins _ _ _ _) trivial
  exact (remembering R).bind (C.lift hcopy) fun s₄ _ h₄ _ _ =>
    (remembering R).pure (C.mono h₄ hr)

theorem function {shape : FunctionShape} (hσ : F s σ)
    (h : ∀ c ∈ (Node.function shape).components, Puts R F K₁ s inner shadowed ([], c)) :
    (remembering R).Holds s (node inner σ shadowed t (.function shape)) (K shadowed) := by
  obtain ⟨hparams, hresult⟩ := List.forall_mem_append.mp h
  rw [List.forall_mem_singleton] at hresult
  refine (remembering R).bind (C.list hσ hparams) fun s₁ params h₁ _ hparams => ?_
  refine (remembering R).bind (Puts.component hresult h₁ (C.fills h₁ hσ))
    fun s₂ result h₂ _ hresult => ?_
  apply C.lift
  apply C.plain (by simp) (.inr rfl) rfl
  intro c hc
  rcases List.mem_append.mp hc with hc | hc
  · exact C.part h₂ (hparams c hc)
  · exact List.mem_singleton.mp hc ▸ hresult

theorem spans {spans : List Span} (hσ : F s σ)
    (h : ∀ c ∈ (Node.template spans).components, Puts R F K₁ s inner shadowed ([], c)) :
    (remembering R).Holds s (node inner σ shadowed t (.template spans)) (K shadowed) := by
  refine (remembering R).bind (remembering_mapM
    (K := fun s' (span : Span) => ∀ c, span = .hole c → K₁ shadowed s' c)
    (fun h hspan c hc => C.part h (hspan c hc)) fun span hspan s₁ h₁ => ?_)
    fun s₁ results _ _ hresults =>
      C.lift (C.template fun c hc => hresults _ hc c rfl)
  cases span with
  | text a => exact (remembering R).pure (by simp)
  | hole u =>
      have hu := h u (List.mem_filterMap.mpr ⟨_, hspan, rfl⟩)
      exact (remembering R).bind (Puts.component hu h₁ (C.fills h₁ hσ)) fun s₂ r _ _ hr =>
        (remembering R).pure (by simpa using hr)

end plain

/-- What the walk carries over to a node. -/
theorem node (hs : s.Formed) (ht : t.index < s.size) (hwork : work ∨ (s.node t).focus = [])
    (hσ : F s σ) (h : ∀ x ∈ (s.node t).scopes, Puts R F K₁ s inner shadowed x) :
    (remembering R).Holds s (node inner σ shadowed t (s.node t)) (K shadowed) := by
  have hplain : (s.node t).scopes = (s.node t).components.map ([], ·) →
      ∀ c ∈ (s.node t).components, Puts R F K₁ s inner shadowed ([], c) := fun hscopes c hc =>
    h _ (hscopes ▸ List.mem_map_of_mem hc)
  cases hn : s.node t with
  | error | intrinsic _ | literal _ =>
      refine (remembering R).pure (C.leaf hs ht (by simp [hn]) ?_)
      rw [hn]
      rfl
  | param info => exact (remembering R).pure (C.param hs ht hn hσ)
  | union members =>
      rw [hn] at hplain
      exact (remembering R).bind (C.list hσ (hplain rfl)) fun s₁ rs _ _ hrs =>
        C.lift (C.rawUnion fun r hr => C.of_part (hrs r hr))
  | intersection members =>
      rw [hn] at hplain
      exact (remembering R).bind (C.list hσ (hplain rfl)) fun s₁ rs _ _ hrs =>
        C.lift (C.rawIntersection hrs)
  | object shape =>
      rw [hn] at hplain
      exact C.object hσ (hplain rfl)
  | function shape =>
      rw [hn] at hplain
      exact C.function hσ (hplain rfl)
  | reference name args =>
      rw [hn] at hplain
      exact (remembering R).bind (C.list hσ (hplain rfl)) fun s₁ rs _ _ hrs =>
        C.lift (C.plain (by simp) (.inr rfl) rfl hrs)
  | template spans =>
      rw [hn] at hplain
      exact C.spans hσ (hplain rfl)
  | array element =>
      rw [hn] at hplain
      have helement := hplain rfl element (List.mem_singleton_self element)
      refine (remembering R).bind (Puts.component helement (.refl s) hσ) fun s₁ r _ _ hr => ?_
      exact C.lift (C.plain (by simp) (.inr rfl) rfl (by simpa [Node.components] using hr))
  | stringMap kind arg =>
      rw [hn] at hplain hwork
      have harg := hplain rfl arg (List.mem_singleton_self arg)
      refine (remembering R).bind (Puts.component harg (.refl s) hσ) fun s₁ r _ _ hr => ?_
      apply C.lift
      apply C.plain (by simp) (.inl (by simpa [Node.focus] using hwork)) rfl
      simpa [Node.components] using hr
  | indexAccess object key =>
      rw [hn] at hplain hwork
      obtain ⟨hobject, hkey⟩ := List.forall_mem_cons.mp (hplain rfl)
      rw [List.forall_mem_singleton] at hkey
      refine (remembering R).bind (Puts.component hobject (.refl s) hσ) fun s₁ r h₁ _ hr => ?_
      refine (remembering R).bind (Puts.component hkey h₁ (C.fills h₁ hσ)) fun s₂ r' h₂ _ hr' => ?_
      apply C.lift
      apply C.plain (by simp) (.inl (by simpa [Node.focus] using hwork)) rfl
      simpa [Node.components] using ⟨C.part h₂ hr, hr'⟩
  | conditional c =>
      rw [hn] at h hwork
      exact C.conditional (by simpa [Node.focus] using hwork) hσ h
  | mapped m =>
      rw [hn] at h hwork
      exact C.mapped (by simpa [Node.focus] using hwork) hσ h

end Carries

end Instantiation

end TypeResolution
