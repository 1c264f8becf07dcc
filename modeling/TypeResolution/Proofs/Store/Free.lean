import TypeResolution.Proofs.Normal.Kept
import TypeResolution.Proofs.Replay.Substitution

/-!
Free occurrences of parameters. A parameter is free where no binder around it binds its name. What
unions and intersections make of types has no free parameter that none of the types has.
-/

namespace TypeResolution

namespace Store

/-- A parameter with a `wanted` name occurs in a type outside of the binders of its name, also of
those in `bound`. -/
inductive HasFree (s : Store) (wanted : String → Prop) : List String → TypeId → Prop
  | here {bound : List String} {t : TypeId} {info : TypeParam} : s.node t = .param info →
      info.name ∉ bound → wanted info.name → HasFree s wanted bound t
  | within {bound names : List String} {t c : TypeId} : (names, c) ∈ (s.node t).scopes →
      HasFree s wanted (names ++ bound) c → HasFree s wanted bound t

/-- A type of the store in which no parameter with a `wanted` name is free. -/
structure Without (s : Store) (wanted : String → Prop) (t : TypeId) : Prop where
  closed : s.Closed AnyName t
  not_free : ¬s.HasFree wanted [] t

variable {s s' : Store} {wanted : String → Prop} {t c : TypeId}

theorem HasFree.back {bound : List String} (h : s.Extends s') (hfree : s'.HasFree wanted bound t)
    (ht : s.Closed AnyName t) : s.HasFree wanted bound t := by
  induction hfree with
  | here hn hbound hwanted => exact .here ((h.node_eq _ ht.known).symm.trans hn) hbound hwanted
  | within hc _ ih =>
      rw [h.node_eq _ ht.known] at hc
      exact .within hc (ih (ht.node.components _ (Node.mem_components_of_mem_scopes hc)))

theorem HasFree.mono {bound : List String} (h : s.Extends s') (hfree : s.HasFree wanted bound t)
    (ht : s.Closed AnyName t) : s'.HasFree wanted bound t := by
  induction hfree with
  | here hn hbound hwanted => exact .here ((h.node_eq _ ht.known).trans hn) hbound hwanted
  | within hc _ ih =>
      have ht' := ht.node.components _ (Node.mem_components_of_mem_scopes hc)
      rw [← h.node_eq _ ht.known] at hc
      exact .within hc (ih ht')

theorem Without.mono (h : s.Extends s') (ht : s.Without wanted t) : s'.Without wanted t :=
  ⟨h.closed ht.closed, fun hfree => ht.not_free (hfree.back h ht.closed)⟩

theorem Without.back (h : s'.Without wanted t) (hext : s.Extends s') (ht : s.Closed AnyName t) :
    s.Without wanted t :=
  ⟨ht, fun hfree => h.not_free (hfree.mono hext ht)⟩

/-- What is free in a component that no binder stands around is free in the type. -/
theorem Without.component (ht : s.Without wanted t) (hc : ([], c) ∈ (s.node t).scopes) :
    s.Without wanted c :=
  ⟨ht.closed.node.components c (Node.mem_components_of_mem_scopes hc),
    fun hfree => ht.not_free (.within hc hfree)⟩

theorem Without.of_scopes (ht : s.Closed AnyName t) (hn : ∀ info, s.node t ≠ .param info)
    (hscopes : ∀ x ∈ (s.node t).scopes, x.1 = [] ∧ s.Without wanted x.2) : s.Without wanted t := by
  refine ⟨ht, fun hfree => ?_⟩
  cases hfree with
  | here hparam _ _ => exact hn _ hparam
  | within hc hfree =>
      obtain ⟨hnames, hwithout⟩ := hscopes _ hc
      dsimp only at hnames
      subst hnames
      exact hwithout.not_free hfree

theorem Without.of_leaf (ht : t.index < s.size) (hn : ∀ info, s.node t ≠ .param info)
    (hcomponents : (s.node t).components = []) (hs : s.Formed) : s.Without wanted t := by
  refine .of_scopes (hs.closed_of_known ht) hn fun x hx => ?_
  have hx := Node.mem_components_of_mem_scopes hx
  rw [hcomponents] at hx
  cases hx

theorem Without.fixed (hs : s.Formed) (ht : t.isFixed) : s.Without wanted t := by
  have hleaf : ∀ m ∈ Node.fixed, m.components = [] ∧ ∀ info, m ≠ .param info := by
    intro m hm
    simp only [Node.fixed, List.mem_cons, List.not_mem_nil, or_false] at hm
    rcases hm with rfl | rfl | rfl | rfl | rfl | rfl | rfl | rfl | rfl | rfl | rfl | rfl <;>
      exact ⟨rfl, by simp⟩
  have hnode : (s.node t).components = [] ∧ ∀ info, s.node t ≠ .param info := by
    obtain ⟨i⟩ := t
    have hi : i < TypeId.fixedCount := by simpa [TypeId.isFixed] using ht
    rw [hs.node_fixed hi]
    cases hm : Node.fixed[i]? with
    | none => exact ⟨rfl, by simp⟩
    | some m => exact hleaf m (List.mem_of_getElem? hm)
  exact .of_leaf (hs.known_of_isFixed ht) hnode.2 hnode.1 hs

end Store

open Store

theorem Node.scopes_of_structural {n : Node} (hn : n.isStructural) :
    n.scopes = n.components.map ([], ·) := by
  cases n with
  | union _ | intersection _ | object _ | function _ | array _ => rfl
  | _ => cases hn

/-- Building normal forms names no alias that is not named. -/
theorem kept_closed (P : String → Prop) : Normal.Kept fun s t => s.Closed P t where
  mono h ht := h.closed ht
  known ht := ht.known
  fixed hs ht := hs.closed_fixed ht
  component ht _ hc := ht.node.components _ hc
  made {s t} ht hn _ hparts := by
    refine .intro ht (fun name args hreference => ?_) hparts
    rw [hreference] at hn
    cases hn

/-- Building normal forms frees no parameter. -/
theorem kept_without (wanted : String → Prop) : Normal.Kept fun s t => s.Without wanted t where
  mono h ht := ht.mono h
  known ht := ht.closed.known
  fixed hs ht := .fixed hs ht
  component {s t c} ht hn hc := by
    refine ht.component ?_
    rw [Node.scopes_of_structural hn]
    exact List.mem_map_of_mem hc
  made {s t} ht hn _ hparts := by
    refine .of_scopes (.intro ht (fun _ _ _ => trivial) fun c hc => (hparts c hc).closed)
      (fun info hparam => ?_) fun x hx => ?_
    · rw [hparam] at hn
      cases hn
    · rw [Node.scopes_of_structural hn] at hx
      obtain ⟨c, hc, rfl⟩ := List.mem_map.mp hx
      exact ⟨rfl, hparts c hc⟩

end TypeResolution
