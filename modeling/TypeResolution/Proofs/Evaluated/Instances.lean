import TypeResolution.Proofs.Evaluated.Depth
import TypeResolution.Proofs.Inference.Arguments

/-!
Instances of a type. When what is put in the place of parameters is finished, an instance has no more
work to do than the type has; and what a pattern binds is finished, when it is taken from a finished
type.
-/

namespace TypeResolution

open Store Instantiation Inference

variable {s s' : Store} {t r : TypeId} {below k m : ℕ}

/-- The types with ids below are tidy. -/
structure Store.TidyTo (s : Store) (below : ℕ) : Prop where
  le_size : below ≤ s.size
  tidy : ∀ u : TypeId, u.index < below → (s.node u).Tidy s.numbers

theorem Store.TidyTo.mono (h : s.TidyTo below) (hext : s.Extends s') : s'.TidyTo below where
  le_size := h.le_size.trans hext.size_le
  tidy u hu := by
    rw [hext.node_eq u (hu.trans_le h.le_size), hext.numbers_eq]
    exact h.tidy u hu

/-- What a type may become in an instance. -/
structure Becomes (s : Store) (t r : TypeId) : Prop where
  closed : s.Closed AnyName t
  within : ∀ n, s.Within n t → s.Within n r
  same : s.Without AnyName t → r = t

namespace Becomes

theorem self (ht : s.Closed AnyName t) : Becomes s t t := ⟨ht, fun _ h => h, fun _ => rfl⟩

theorem mono (h : Becomes s t r) (hext : s.Extends s') : Becomes s' t r where
  closed := hext.closed h.closed
  within n hn := (h.within n (hn.back hext h.closed)).mono hext
  same hwithout := h.same (hwithout.back hext h.closed)

end Becomes

theorem focus_eq_nil_of_identity_eq {a b : Node} (h : a.identity = b.identity) (hb : b.focus = []) :
    a.focus = [] := by
  rcases Node.eq_or_objects_of_identity_eq h with rfl | ⟨o, p, rfl, rfl, -⟩
  · exact hb
  · rfl

/-- A node counts for one level of work, unless there is no work at the node itself. -/
theorem within_intern {n : Node} (hn : ∀ info, n ≠ .param info) (hm : m = k ∨ m = k + 1)
    (hwork : m = k ∨ n.focus = []) (hscopes : ∀ x ∈ n.scopes, s.Within m x.2) :
    building.Holds s (Build.intern n) fun s' r => s'.Within (k + 1) r := by
  have hknown : ∀ c ∈ n.components, c.index < s.size := by
    intro c hc
    obtain ⟨names, hc⟩ := Node.exists_scope hn hc
    exact (hscopes _ hc).closed.known
  refine building.mono (building_intern hknown) fun s' r h hs' hr => ?_
  have hscopes' : ∀ x ∈ (s'.node r).scopes, s'.Within m x.2 := by
    intro x hx
    rw [Node.mem_scopes_of_identity_eq hr.2] at hx
    exact (hscopes x hx).mono h
  rcases hm with rfl | rfl
  · exact .work (hs'.closed_of_known hr.1) hscopes'
  · have hfocus : n.focus = [] := hwork.resolve_left (by omega)
    exact .plain (hs'.closed_of_known hr.1) (focus_eq_nil_of_identity_eq hr.2 hfocus) hscopes'

namespace Instantiation

/-- What is remembered of types in which nothing is free: they became themselves. -/
def Memory.becoming (s : Store) : Memory s AnyName where
  holds cache := ∀ t r : TypeId, cache[t]? = some r → Becomes s t r
  same h hr hfree := (h _ _ hr).same ⟨(h _ _ hr).closed, hfree⟩
  insert {cache t} h ht _ u r hu := by
    rw [Std.HashMap.getElem?_insert] at hu
    split at hu
    · rename_i htu
      cases hu
      exact eq_of_beq htu ▸ .self ht
    · exact h u r hu

theorem within_leaf (hs : s.Formed) (ht : t.index < s.size) (hscopes : (s.node t).scopes = []) :
    s.Within (k + 1) t := by
  apply Within.work (hs.closed_of_known ht)
  simp [hscopes]

/-- Substitutions of finished types carry over how much work there is. -/
theorem carries_within (hm : m = k ∨ m = k + 1) : Carries Becomes (Binds Finished) Finished (m = k)
    (fun _ s t => s.Within m t) (fun _ s t => s.Within (k + 1) t) where
  remembered h hr := hr.mono h
  fills h hσ name u hu := (hσ name u hu).mono h
  insert name hσ hu := hσ.insert hu name
  put hσ hu := hσ _ _ hu
  value h hu := hu.mono h
  member hu hn hm := hu.part (by rw [hn]; exact hm)
  part h ht := ht.mono h
  mono h ht := ht.mono h
  of_part ht := ht.of_le (by omega)
  leaf hs ht hn hc := by
    refine within_leaf hs ht (List.eq_nil_iff_forall_not_mem.mpr fun x hx => ?_)
    have hx := Node.mem_components_of_mem_scopes hx
    rw [hc] at hx
    cases hx
  param {s σ shadowed t info} hs ht hn hσ := by
    cases hfound : lookup? σ shadowed info.name with
    | none => exact within_leaf hs ht (by rw [Option.getD_none, hn]; rfl)
    | some u =>
        unfold lookup? at hfound
        split at hfound
        · cases hfound
        · exact .finished (hσ _ _ hfound)
  intern hn hwork hscopes := within_intern hn hm hwork hscopes
  union hts := within_intern (m := k + 1) (by simp) (.inr rfl) (.inr rfl)
    (by simpa [Node.scopes, Node.components] using hts)

variable {σ : Substitution} {shadowed : List String}

theorem becomes_instantiateAt {depth : ℕ} (htidy : s.TidyTo below) (hbelow : t.index < below)
    (hσ : Binds Finished s σ) :
    (remembering Becomes).Holds s (instantiateAt depth σ shadowed t) fun s' r => Becomes s' t r := by
  induction depth generalizing s t σ shadowed with
  | zero =>
      refine (remembering _).formed fun hs => ?_
      have ht : s.Closed AnyName t := hs.closed_of_known (hbelow.trans_le htidy.le_size)
      exact remembering_asked (fun _ => .self ht) (fun _ _ => id) fun _ =>
        (remembering _).pure (.self ht)
  | succ depth ih =>
      refine (remembering _).formed fun hs => ?_
      have ht : s.Closed AnyName t := hs.closed_of_known (hbelow.trans_le htidy.le_size)
      by_cases hwithout : s.Without AnyName t
      · intro cache hcache
        obtain ⟨cache', hrun, hcache'⟩ := leaves_instantiateAt (M := .becoming s) hs htidy.tidy
          (fun _ _ => trivial) (depth + 1) ht hbelow (List.nil_subset shadowed) hwithout.not_free
          cache hcache
        intro _
        rw [hrun]
        exact ⟨.refl s, hs, hcache', .self ht⟩
      -- what is not finished has a depth, to which the walk does not add
      have hfinished : ¬Finished s t := fun h => hwithout h.without
      obtain ⟨k, hk, -⟩ := exists_descends hs ht hfinished
      have hdepth : s.Within (k + 1) t := hk ▸ within_depth hs ht
      have hpart : ∀ {m}, (∀ x ∈ (s.node t).scopes, s.Within m x.2) → ∀ x ∈ (s.node t).scopes,
          Puts Becomes (Binds Finished) (fun _ s u => s.Within m u) s (instantiateAt depth) shadowed x := by
        intro m hscopes x hx s₁ h₁ τ hτ
        have hindex := hs.index_lt_of_component (Node.mem_components_of_mem_scopes hx)
        refine (remembering _).mono (ih (htidy.mono h₁) (hindex.trans hbelow) hτ) fun s₂ r h₂ _ hr => ?_
        exact hr.within m ((hscopes x hx).mono (h₁.trans h₂))
      have hnode : (remembering Becomes).Holds s
          (node (instantiateAt depth) σ shadowed t (s.node t)) fun s' r => s'.Within (k + 1) r := by
        cases hdepth with
        | finished h => exact absurd h hfinished
        | plain _ hfocus hscopes =>
            exact (carries_within (.inr rfl)).node hs ht.known (.inr hfocus) hσ (hpart hscopes)
        | work _ hscopes =>
            exact (carries_within (.inl rfl)).node hs ht.known (.inl rfl) hσ (hpart hscopes)
      have hstep := (remembering Becomes).mono hnode fun s₁ r h₁ _ hr =>
        (⟨h₁.closed ht, fun n hn => hr.of_le (hk ▸ (hn.back h₁ ht).depth_le),
          fun h => absurd (h.back h₁ ht) hwithout⟩ : Becomes s₁ t r)
      exact remembering_asked (fun _ => .self ht) (fun _ _ => id) fun _ =>
        remembering_node (remembering_added hstep fun _ _ _ _ h => h)

end Instantiation

/-- An instance has no more work to do than the type. -/
theorem building_instantiate {σ : Substitution} (htidy : s.TidyTo below) (hbelow : t.index < below)
    (hσ : Binds Finished s σ) : building.Holds s (Build.instantiate σ t) fun s' r => Becomes s' t r := by
  refine building.formed fun hs => ?_
  unfold Build.instantiate
  split
  · exact building.pure (.self (hs.closed_of_known (hbelow.trans_le htidy.le_size)))
  · have hwalk : (remembering Becomes).Holds s (instantiateAt Instantiation.maxDepth σ [] t)
        fun s' r => Becomes s' t r := becomes_instantiateAt htidy hbelow hσ
    exact building.bind (hwalk ∅ fun t r hr => by simp at hr) fun s₁ r _ _ hr => building.pure hr.2

theorem building_finished_text (text : String) :
    building.Holds s (Build.stringLiteral text) Finished := by
  refine building.mono (Inference.building_stringLiteral text) fun s' t _ hs' ht => ?_
  obtain ⟨hknown, hn⟩ := ht
  have hleaf : (s'.node t).components = [] := by rw [hn]; rfl
  refine ⟨.of_rests (hs'.closed_of_known hknown) hn trivial trivial ?_,
    .of_leaf hknown (by simp [hn]) hleaf hs'⟩
  simp [Node.evaluatedParts, Node.components]

namespace Inference

theorem expand_empty (t : TypeId) (s : Store) : expand .empty t s = (t, s) := by
  have hnode : Build.node t s = (s.node t, s) := rfl
  unfold expand maxExpansions expandAt
  rw [bind_idle hnode]
  cases s.node t <;> rfl

/-- What a finished source offers is finished. -/
theorem offers_finished {p : Problem} (hp : p.environment = .empty) :
    Offers p (fun _ _ _ => True) Finished Finished where
  target_mono _ h := h
  source_mono h ht := ht.mono h
  mono h ht := ht.mono h
  target_plain _ := hp ▸ expand_empty _ _
  source_plain _ := hp ▸ expand_empty _ _
  target_part _ _ := trivial
  target_member _ _ _ _ := trivial
  source_part {s t c} ht hn hc := by
    apply ht.part
    have hrests := ht.evaluated.rests
    cases h : s.node t with
    | reference _ _ =>
        rw [h] at hrests
        cases hrests
    | union _ | object _ | function _ | array _ =>
        rw [h] at hc
        exact hc
    | _ =>
        rw [h] at hn
        cases hn
  source_union := kept_finished.union
  source_text := building_finished_text
  kept _ hu _ _ := hu
  widened := kept_widenAt kept_finished

/-- The names of a pattern are bound to finished types, if they are taken from one. -/
theorem binds_matchPattern {literals : Bool} {check pattern : TypeId} {names : List String}
    (hcheck : Finished s check) :
    building.Holds s (matchPattern .empty literals check pattern names) fun s' found =>
      ∀ σ, found = some σ → Binds Finished s' σ := by
  have hwalk := (offers_finished (p := .of .empty literals (names.map .named)) rfl).walks_inferAt
    maxDepth [] s s (.refl s) true pattern check trivial hcheck
  unfold matchPattern
  refine building.bind (hwalk _ fun pool hpool t ht => ?_) fun s₁ r h₁ hs₁ hr => ?_
  · obtain ⟨info, -, rfl⟩ := List.mem_map.mp hpool
    cases ht
  obtain ⟨matched, pools⟩ := r
  dsimp only
  split
  · refine building.bind (building.foldlM (P := fun s' _ σ => Binds Finished s' σ) ?_ ?_)
      fun s₂ σ _ _ hσ => building.pure (by simpa using hσ)
    · intro name t h
      cases h
    · intro name _ s₂ _ σ h₂ hs₂ hσ
      have hsolve : building.Holds s₂ (solve true name pools).run fun s' found =>
          ∀ a, found = .ok a → ∀ t, a = some t → Finished s' t :=
        trying_solve (C := Finished) (fun h ht => ht.mono h) kept_finished.union true
          (fun pool hpool t ht => (hr.2 pool hpool t ht).mono h₂) name
      refine building.bind hsolve fun s₃ found h₃ hs₃ hfound => ?_
      have hσ₃ : Binds Finished s₃ σ := fun name t h => (hσ name t h).mono h₃
      have hunknown := building.pure (hσ₃.insert (kept_finished.fixed hs₃ (t := .unknown) rfl) name)
      match found with
      | .ok (some u) => exact building.pure (hσ₃.insert (hfound _ rfl u rfl) name)
      | .ok none => exact hunknown
      | .error _ => exact hunknown
  · exact building.pure (by simp)

end Inference

end TypeResolution
