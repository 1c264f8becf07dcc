import TypeResolution.Proofs.Store.Walks

/-!
What a substitution leaves behind. When nothing is free in the types that it puts in, then none of
its names is free in the result: every part is walked with the names that are bound around it, and
what is remembered was walked where no name was bound. The walk and the queries for free parameters
agree on what a binder binds.
-/

namespace TypeResolution

open Store

namespace Instantiation

variable {names : String → Prop} {shadowed binders : List String} {s s' : Store} {t : TypeId}

/-- The names that a binder around does not bind. -/
abbrev Unshadowed (names : String → Prop) (shadowed : List String) : String → Prop :=
  fun name => names name ∧ name ∉ shadowed

abbrev Cleared (names : String → Prop) (shadowed : List String) : Store → TypeId → Prop :=
  fun s t => s.Without (Unshadowed names shadowed) t

theorem not_hasFree_within (h : Cleared names (shadowed ++ binders) s t) :
    ¬s.HasFree (Unshadowed names shadowed) (binders ++ []) t := by
  intro hfree
  apply h.not_free
  obtain ⟨name, ⟨hname, hshadowed⟩, hbinders, hfree⟩ := hasFree_iff.mp hfree
  refine hasFree_iff.mpr ⟨name, ⟨hname, ?_⟩, by simp, hfree⟩
  simpa [hshadowed] using hbinders

/-- In the types that a substitution puts in nothing is free, and it puts in one for each name. -/
structure Fills (s : Store) (names : String → Prop) (σ : Substitution) : Prop where
  bound : ∀ name, names name → σ.contains name
  closed : ∀ name u, σ.get? name = some u → s.Without AnyName u

variable {σ : Substitution}

theorem Fills.mono (h : s.Extends s') (hσ : Fills s names σ) : Fills s' names σ where
  bound := hσ.bound
  closed name u hu := (hσ.closed name u hu).mono h

theorem Fills.insert (hσ : Fills s names σ) {u : TypeId} (hu : s.Without AnyName u)
    (name : String) : Fills s names (σ.insert name u) where
  bound other hother := by
    rw [Substitution.contains, Substitution.get?_insert]
    split
    · rfl
    · exact hσ.bound other hother
  closed other v hv := by
    rw [Substitution.get?_insert] at hv
    split at hv
    · cases hv
      exact hu
    · exact hσ.closed other v hv

theorem clear_intern {n : Node} (hn : ∀ info, n ≠ .param info)
    (hscopes : ∀ x ∈ n.scopes, Cleared names (shadowed ++ x.1) s x.2) :
    building.Holds s (Build.intern n) (Cleared names shadowed) := by
  have hknown : ∀ c ∈ n.components, c.index < s.size := by
    intro c hc
    obtain ⟨binders, hc⟩ := Node.exists_scope hn hc
    exact (hscopes _ hc).closed.known
  refine building.mono (building_intern hknown) fun s' r h hs' hr => ?_
  have hparam : ∀ info, s'.node r ≠ .param info := by
    intro info hinfo
    rcases Node.eq_or_objects_of_identity_eq hr.2 with heq | ⟨o, p, ho, -, -⟩
    · exact hn info (heq.symm.trans hinfo)
    · cases ho.symm.trans hinfo
  refine ⟨hs'.closed_of_known hr.1, fun hfree => ?_⟩
  obtain ⟨x, hx, hfree⟩ := (hasFree_scopes_iff hparam).mp hfree
  rw [Node.mem_scopes_of_identity_eq hr.2] at hx
  exact not_hasFree_within ((hscopes x hx).mono h) hfree

/-- A parameter is replaced unless its name is bound around it. -/
theorem clear_param {info : TypeParam} (hs : s.Formed) (ht : t.index < s.size)
    (hn : s.node t = .param info) (hσ : Fills s names σ) :
    Cleared names shadowed s ((lookup? σ shadowed info.name).getD t) := by
  cases hfound : lookup? σ shadowed info.name with
  | some u =>
      unfold lookup? at hfound
      split at hfound
      · cases hfound
      · exact (hσ.closed _ _ hfound).imp fun _ _ => trivial
  | none =>
      refine ⟨hs.closed_of_known ht, fun hfree => ?_⟩
      obtain ⟨-, hname, hshadowed⟩ := (hasFree_param_iff hn).mp hfree
      have hbound := hσ.bound _ hname
      rw [Substitution.contains, Option.isSome_iff_ne_none] at hbound
      rw [lookup?, if_neg (by simpa using hshadowed)] at hfound
      exact hbound hfound

/-- Where nothing is free that is put in, the names are gone. -/
theorem carries_cleared (names : String → Prop) : Carries (fun s _ r => s.Without names r)
    (fun s σ => Fills s names σ) (fun s t => s.Without AnyName t) True (Cleared names)
    (Cleared names) where
  remembered h hr := hr.mono h
  fills h hσ := hσ.mono h
  insert name hσ hu := hσ.insert hu name
  put hσ hu := hσ.closed _ _ hu
  value h hu := hu.mono h
  member hu hn hm := hu.component (by rw [hn]; exact List.mem_map_of_mem hm)
  part h ht := ht.mono h
  mono h ht := ht.mono h
  of_part := id
  leaf hs ht hn hc := .of_leaf ht hn hc hs
  param := clear_param
  intern hn _ hscopes := clear_intern hn hscopes
  union hts := clear_intern (by simp) (by simpa [Node.scopes, Node.components] using hts)

/-- With no name bound, all the names are gone: the result serves below every binder. -/
theorem cleared_iff (h : shadowed.isEmpty) : Cleared names shadowed s t ↔ s.Without names t := by
  obtain rfl := List.isEmpty_iff.mp h
  exact ⟨fun ht => ht.imp fun name hname => ⟨hname, by simp⟩, fun ht => ht.imp fun _ hname => hname.1⟩

theorem clears_instantiateAt {depth : Nat} (ht : s.Closed AnyName t) (hdepth : s.Shallow depth t)
    (hσ : Fills s names σ) : (remembering fun s _ r => s.Without names r).Holds s
      (instantiateAt depth σ shadowed t) (Cleared names shadowed) := by
  induction depth generalizing s σ shadowed t with
  | zero =>
      refine (remembering _).formed fun hs => ?_
      unfold instantiateAt
      refine remembering_asked (.fixed hs) (fun h r => (cleared_iff h).mpr) fun hfixed => ?_
      cases hdepth with
      | fixed h => simp [h] at hfixed
  | succ depth ih =>
      refine (remembering _).formed fun hs => ?_
      unfold instantiateAt
      refine remembering_asked (.fixed hs) (fun h r => (cleared_iff h).mpr) fun hfixed => ?_
      refine remembering_node (remembering_added ?_ fun h _ _ _ => (cleared_iff h).mp)
      refine (carries_cleared names).node hs ht.known (.inl trivial) hσ fun x hx s₁ h₁ σ hσ => ?_
      have hx' := ht.node.components _ (Node.mem_components_of_mem_scopes hx)
      exact ih (h₁.closed hx') ((hdepth.component hfixed hx).mono h₁ hx') hσ

end Instantiation

namespace Build

open Instantiation

variable {s : Store} {t : TypeId} {σ : Substitution} {name : String}

/-- None of the names of a substitution of closed types is free in what it makes. -/
theorem not_free_instantiate (hs : s.Formed) (ht : t.index < s.size)
    (hdepth : s.Shallow maxDepth t)
    (hσ : ∀ name u, σ.get? name = some u → u.index < s.size ∧ ∀ n, ¬s.Free n u)
    (hname : σ.contains name) : ¬(instantiate σ t s).2.Free name (instantiate σ t s).1 := by
  have hfills : Fills s (σ.contains ·) σ := by
    refine ⟨fun _ h => h, fun other u hu => ?_⟩
    obtain ⟨hknown, hclosed⟩ := hσ other u hu
    refine ⟨hs.closed_of_known hknown, fun hfree => ?_⟩
    obtain ⟨n, -, -, hfree⟩ := hasFree_iff.mp hfree
    exact hclosed n hfree
  rw [← hasFree_name_iff]
  unfold instantiate
  split
  · rename_i htrivial
    rcases (Bool.or_eq_true _ _).mp htrivial with hempty | hfixed
    · have hnone : σ.get? name = none := by
        rw [Substitution.get?, List.isEmpty_iff.mp hempty]
        rfl
      simp [Substitution.contains, hnone] at hname
    · exact not_hasFree_of_fixed hs hfixed
  · have hwalk : (remembering fun s _ r => s.Without (σ.contains ·) r).Holds s
        (instantiateAt maxDepth σ [] t) (Cleared (σ.contains ·) []) :=
      clears_instantiateAt (hs.closed_of_known ht) hdepth hfills
    obtain ⟨-, -, -, hresult⟩ := hwalk ∅ (fun t r hr => by simp at hr) hs
    refine (hresult.imp fun other hother => ?_).not_free
    exact ⟨by rw [hother]; exact hname, by simp⟩

/-- The walk of a substitution and the queries for free parameters share one scoping rule. -/
theorem instantiate_scoping (hs : s.Formed) (htidy : s.Tidy) (ht : t.index < s.size) :
    (s.Shallow Scope.maxDepth t → ∀ name, s.referencesParam name t = true ↔ s.Free name t) ∧
    ((∀ name, σ.contains name → ¬s.Free name t) → instantiate σ t s = (t, s)) ∧
    (s.Shallow maxDepth t →
      (∀ name u, σ.get? name = some u → u.index < s.size ∧ ∀ n, ¬s.Free n u) →
      ∀ name, σ.contains name → ¬(instantiate σ t s).2.Free name (instantiate σ t s).1) := by
  refine ⟨fun hdepth => referencesParam_iff hs hdepth, fun hfree => ?_, fun hdepth hσ name hname =>
    not_free_instantiate hs ht hdepth hσ hname⟩
  have hnone : ¬s.HasFree (σ.contains ·) [] t := by
    intro h
    obtain ⟨name, hname, -, hname'⟩ := hasFree_iff.mp h
    exact hfree name hname hname'
  exact instantiate_of_not_free hs htidy (fun _ h => h) ht hnone

/-- `T extends infer U ? U : U`, where the last `U` is not the one that is inferred. -/
def dependent : Conditional := ⟨⟨12⟩, ⟨13⟩, ["U"], ⟨13⟩, ⟨13⟩, true⟩

/-- The parameters `T` and `U`, `null | string` and the conditional type. -/
def dependentStore : Store :=
  [.param (.named "T"), .param (.named "U"), .union [.null, .string], .conditional dependent].foldl
    (fun s n => (s.intern n).2) Store.empty

theorem dependentStore_nodes :
    dependentStore.size = 16 ∧ dependentStore.node ⟨12⟩ = .param (.named "T") ∧
      dependentStore.node ⟨13⟩ = .param (.named "U") ∧
      dependentStore.node ⟨14⟩ = .union [.null, .string] ∧
      dependentStore.node ⟨15⟩ = .conditional dependent := by
  refine ⟨?_, ?_, ?_, ?_, ?_⟩ <;> cbv

theorem formed_and_tidy_dependentStore : dependentStore.Formed ∧ dependentStore.Tidy := by
  have hgrow : ∀ (s : Store) (n : Node), s.Formed ∧ s.Tidy → n.Tidy s.numbers →
      (∀ c ∈ n.components, c.index < s.size) → (s.intern n).2.Formed ∧ (s.intern n).2.Tidy :=
    fun s n hs hn hc => ⟨hs.1.intern hc, hs.2.intern hn⟩
  have hT := hgrow _ (.param (.named "T")) ⟨formed_empty, tidy_empty⟩ trivial nofun
  have hU := hgrow _ (.param (.named "U")) hT trivial nofun
  have hunion := hgrow _ (.union [.null, .string]) hU ⟨by decide, by decide⟩ (by
    simp only [Node.components, List.forall_mem_cons]
    exact ⟨hU.1.known_of_isFixed rfl, hU.1.known_of_isFixed rfl, by simp⟩)
  refine hgrow _ (.conditional dependent) hunion trivial ?_
  have hsize : ((((Store.empty.intern (.param (.named "T"))).2.intern (.param (.named "U"))).2.intern
      (.union [.null, .string])).2).size = 15 := by cbv
  rw [hsize]
  decide

theorem instantiate_scoping_dependent :
    (dependentStore.referencesParam "U" ⟨15⟩ = true ↔ dependentStore.Free "U" ⟨15⟩) ∧
    instantiate ⟨[("K", .string)]⟩ ⟨15⟩ dependentStore = (⟨15⟩, dependentStore) ∧
    ¬(instantiate ⟨[("T", ⟨14⟩)]⟩ ⟨15⟩ dependentStore).2.Free "T"
      (instantiate ⟨[("T", ⟨14⟩)]⟩ ⟨15⟩ dependentStore).1 := by
  obtain ⟨hsize, hT, hU, hunion, hn⟩ := dependentStore_nodes
  obtain ⟨hs, htidy⟩ := formed_and_tidy_dependentStore
  have ht : (⟨15⟩ : TypeId).index < dependentStore.size := by rw [hsize]; decide
  have hdepth : ∀ depth, dependentStore.Shallow (depth + 2) ⟨15⟩ := by
    intro depth
    have hT' : dependentStore.Shallow (depth + 1) ⟨12⟩ := .node (by simp [hT, Node.scopes])
    have hU' : dependentStore.Shallow (depth + 1) ⟨13⟩ := .node (by simp [hU, Node.scopes])
    apply Shallow.node
    simp [hn, Node.scopes, dependent, hT', hU']
  have hfree : ∀ name, dependentStore.Free name ⟨15⟩ → name = "T" ∨ name = "U" := by
    intro name h
    rw [← hasFree_name_iff, hasFree_scopes_iff (by simp [hn]), hn] at h
    obtain ⟨x, hx, h⟩ := h
    simp only [Node.scopes, dependent, List.mem_cons, List.not_mem_nil, or_false] at hx
    rcases hx with rfl | rfl | rfl | rfl
    · exact .inl ((hasFree_param_iff hT).mp h).2.symm
    · exact .inr ((hasFree_param_iff hU).mp h).2.symm
    · exact .inr ((hasFree_param_iff hU).mp h).2.symm
    · exact .inr ((hasFree_param_iff hU).mp h).2.symm
  have hclosed : ∀ name, ¬dependentStore.Free name ⟨14⟩ := by
    intro name h
    rw [← hasFree_name_iff, hasFree_scopes_iff (by simp [hunion]), hunion] at h
    obtain ⟨x, hx, h⟩ := h
    rcases List.mem_pair.mp hx with rfl | rfl
    · exact not_hasFree_of_fixed hs rfl h
    · exact not_hasFree_of_fixed hs rfl h
  refine ⟨(instantiate_scoping (σ := ⟨[]⟩) hs htidy ht).1 (hdepth 62) "U",
    (instantiate_scoping hs htidy ht).2.1 fun name hname h => ?_,
    (instantiate_scoping hs htidy ht).2.2 (hdepth 198) (fun name u hu => ?_) "T" rfl⟩
  · rcases hfree name h with rfl | rfl
    · cases hname
    · cases hname
  · simp only [Substitution.get?, List.lookup_cons, List.lookup_nil] at hu
    split at hu
    · cases hu
      exact ⟨by rw [hsize]; decide, hclosed⟩
    · cases hu

end Build

end TypeResolution
