import TypeResolution.Inference.Basic
import TypeResolution.Proofs.Normal.Union
import TypeResolution.Proofs.Replay.Mirror

/-!
Walks that no guard watches. Each goes from a type to its components, which have smaller ids, so
it ends, and the bound that it carries along never binds: the walk satisfies the recursive equation
without a bound.
-/

namespace TypeResolution

open Store

theorem Store.Formed.index_lt {s : Store} (hs : s.Formed) {t c : TypeId}
    (hc : c ∈ (s.node t).components) : c.index < t.index := by
  by_cases ht : t.index < s.size
  · exact hs.descends t ht c hc
  · rw [node_eq_error_of_size_le (Nat.le_of_not_lt ht)] at hc
    cases hc

section walks

variable {s : Store} {α : Type}

/-- The id of a type bounds a walk that goes down to its components. -/
theorem Store.Formed.walk_eq (hs : s.Formed) (walk : Nat → TypeId → α)
    (hstep : ∀ fuel fuel' t, (∀ c ∈ (s.node t).components, walk fuel c = walk fuel' c) →
      walk (fuel + 1) t = walk (fuel' + 1) t) {fuel : Nat} {t : TypeId} (h : t.index < fuel) :
    walk fuel t = walk (t.index + 1) t := by
  have hfuel : ∀ fuel fuel' t, t.index < fuel → t.index < fuel' → walk fuel t = walk fuel' t := by
    intro fuel
    induction fuel with
    | zero => intro _ _ h; omega
    | succ fuel ih =>
        intro fuel' t h h'
        obtain ⟨fuel', rfl⟩ : ∃ n, fuel' = n + 1 := ⟨fuel' - 1, by omega⟩
        refine hstep fuel fuel' t fun c hc => ?_
        have hlt := hs.index_lt hc
        exact ih fuel' c (by omega) (by omega)
  exact hfuel fuel (t.index + 1) t h (Nat.lt_succ_self _)

theorem Store.Formed.leavesAt_eq_leaves (hs : s.Formed) {parts : Node → Option (List TypeId)}
    (hparts : ∀ n members, parts n = some members → members ⊆ n.components) {fuel : Nat}
    {t : TypeId} (h : t.index < fuel) : s.leavesAt parts fuel t = s.leaves parts t := by
  refine hs.walk_eq (s.leavesAt parts) (fun fuel fuel' t h => ?_) h
  simp only [leavesAt]
  split
  · rename_i members hn
    exact List.flatMap_congr fun m hm => h m (hparts _ _ hn hm)
  · rfl

theorem mapM_congr_of_mem {α β : Type} {f g : α → Option β} {l : List α}
    (h : ∀ a ∈ l, f a = g a) : l.mapM f = l.mapM g := by
  induction l with
  | nil => rfl
  | cons a rest ih =>
      simp only [List.mapM_cons]
      rw [h a (by simp), ih fun b hb => h b (by simp [hb])]

theorem Store.Formed.literalTextsAt_eq_literalTexts (hs : s.Formed) {fuel : Nat} {t : TypeId}
    (h : t.index < fuel) : Template.literalTextsAt s fuel t = Template.literalTexts s t := by
  refine hs.walk_eq (Template.literalTextsAt s) (fun fuel fuel' t h => ?_) h
  unfold Template.literalTextsAt
  cases hn : s.node t with
  | union members =>
      rw [hn] at h
      exact congrArg (Option.map _) (mapM_congr_of_mem h)
  | intrinsic kind => cases kind <;> rfl
  | literal value => cases value <;> rfl
  | _ => rfl

theorem Store.Formed.holeAcceptsAt_eq_holeAccepts (hs : s.Formed) (before : List Char) {fuel : Nat}
    {t : TypeId} (h : t.index < fuel) :
    Template.holeAcceptsAt s fuel before t = Template.holeAccepts s before t := by
  refine hs.walk_eq (fun fuel => Template.holeAcceptsAt s fuel before)
    (fun fuel fuel' t h => ?_) h
  unfold Template.holeAcceptsAt
  cases hn : s.node t with
  | union members =>
      rw [hn] at h
      exact any_congr_of_mem h
  | intrinsic kind => cases kind <;> rfl
  | literal value => cases value <;> rfl
  | _ => rfl

end walks

/-- When two computations that start at a store are said to do the same and to end as described. -/
structure Agreements (m : Type → Type) [Monad m] where
  Hold : ∀ {α : Type}, Store → m α → m α → (Store → α → Prop) → Prop
  pure : ∀ {α : Type} {s : Store} {a : α} {Q : Store → α → Prop}, Q s a → Hold s (pure a) (pure a) Q
  bind : ∀ {α β : Type} {s : Store} {step step' : m α} {f f' : α → m β} {Q : Store → α → Prop}
    {Q' : Store → β → Prop}, Hold s step step' Q →
    (∀ s₁ a, s.Extends s₁ → s₁.Formed → Q s₁ a → Hold s₁ (f a) (f' a) Q') →
    Hold s (step >>= f) (step' >>= f') Q'
  formed : ∀ {α : Type} {s : Store} {step step' : m α} {Q : Store → α → Prop},
    (s.Formed → Hold s step step' Q) → Hold s step step' Q

namespace Agreements

variable {m : Type → Type} [Monad m] (A : Agreements m) {s : Store} {α β : Type}

theorem mono [LawfulMonad m] {step step' : m α} {Q Q' : Store → α → Prop}
    (h : A.Hold s step step' Q) (hQ : ∀ s₁ a, Q s₁ a → Q' s₁ a) : A.Hold s step step' Q' := by
  rw [← bind_pure step, ← bind_pure step']
  exact A.bind h fun s₁ a _ _ ha => A.pure (hQ s₁ a ha)

theorem mapM [LawfulMonad m] {l : List α} {f f' : α → m β} {P : Store → β → Prop}
    (hmono : ∀ {s₁ s₂ b}, s₁.Extends s₂ → P s₁ b → P s₂ b)
    (h : ∀ a ∈ l, ∀ s₁, s.Extends s₁ → A.Hold s₁ (f a) (f' a) P) :
    A.Hold s (l.mapM f) (l.mapM f') fun s' bs => ∀ b ∈ bs, P s' b := by
  induction l generalizing s with
  | nil => exact A.pure (by simp)
  | cons a rest ih =>
      simp only [List.mapM_cons]
      refine A.bind (h a (by simp) s (.refl s)) fun s₁ b h₁ _ hb => ?_
      refine A.bind (ih fun c hc s₂ h₂ => h c (by simp [hc]) s₂ (h₁.trans h₂)) fun s₂ bs h₂ _ hbs => ?_
      exact A.pure (List.forall_mem_cons.mpr ⟨hmono h₂ hb, hbs⟩)

theorem foldlM {l : List α} {f f' : β → α → m β} {P : Store → β → Prop} {b : β} (hb : P s b)
    (h : ∀ a ∈ l, ∀ s₁ b, s.Extends s₁ → P s₁ b → A.Hold s₁ (f b a) (f' b a) P) :
    A.Hold s (l.foldlM f b) (l.foldlM f' b) P := by
  induction l generalizing s b with
  | nil => exact A.pure hb
  | cons a rest ih =>
      simp only [List.foldlM_cons]
      refine A.bind (h a (by simp) s b (.refl s) hb) fun s₁ b' h₁ _ hb' => ?_
      exact ih hb' fun c hc s₂ b₂ h₂ => h c (by simp [hc]) s₂ b₂ (h₁.trans h₂)

end Agreements

def builds : Agreements Build where
  Hold s m m' Q := s.Formed → m' s = m s ∧ s.Extends (m s).2 ∧ (m s).2.Formed ∧ Q (m s).2 (m s).1
  pure h hs := ⟨rfl, .refl _, hs, h⟩
  bind {α β s step step' f f' Q Q'} hm hf hs := by
    obtain ⟨heq, hgrows, hformed, hQ⟩ := hm hs
    obtain ⟨heq', hgrows', hformed', hQ'⟩ := hf _ _ hgrows hformed hQ hformed
    refine ⟨?_, hgrows.trans hgrows', hformed', hQ'⟩
    change f' (step' s).1 (step' s).2 = f (step s).1 (step s).2
    rw [heq]
    exact heq'
  formed h hs := h hs hs

theorem builds_of_building {s : Store} {α : Type} {m : Build α} {Q : Store → α → Prop}
    (h : building.Holds s m Q) : builds.Hold s m m Q :=
  fun hs => ⟨rfl, h hs⟩

section widen

open Inference

variable {s : Store} {t : TypeId}

/-- An id that is given out. -/
def Known (s : Store) (t : TypeId) : Prop := t.index < s.size

theorem Known.mono {s' : Store} (h : Known s t) (hs : s.Extends s') : Known s' t :=
  Nat.lt_of_lt_of_le h hs.size_le

theorem builds_intern {n : Node} (hn : ∀ c ∈ n.components, Known s c) :
    builds.Hold s (Build.intern n) (Build.intern n) Known :=
  builds_of_building (building.mono (building_intern hn) fun _ _ _ _ h => h.1)

theorem builds_widenAt {fuel fuel' : Nat} (hfuel : t.index < fuel) (hfuel' : t.index < fuel')
    (ht : Known s t) : builds.Hold s (widenAt fuel t) (widenAt fuel' t) Known := by
  induction fuel generalizing fuel' t s with
  | zero => omega
  | succ fuel ih =>
      refine builds.formed fun hs => ?_
      obtain ⟨fuel', rfl⟩ : ∃ n, fuel' = n + 1 := ⟨fuel' - 1, by omega⟩
      have hparts : ∀ c ∈ (s.node t).components, ∀ s₁, s.Extends s₁ →
          Known s₁ c ∧ builds.Hold s₁ (widenAt fuel c) (widenAt fuel' c) Known := by
        intro c hc s₁ h₁
        have hlt := hs.descends t ht c hc
        have hknown : Known s c := Nat.lt_trans hlt ht
        exact ⟨hknown.mono h₁, ih (by omega) (by omega) (hknown.mono h₁)⟩
      have hnode : builds.Hold s (Build.node t) (Build.node t) fun _ n => n = s.node t :=
        builds_of_building (building_quiet (.refl s) rfl)
      unfold widenAt
      refine builds.bind hnode fun s₁ n h₁ hs₁ hn => ?_
      subst hn
      cases hn : s.node t with
      | literal value =>
          refine builds.pure (hs₁.known_of_isFixed ?_)
          cases value <;> rfl
      | union members =>
          rw [hn] at hparts
          have hmembers := builds.mapM (fun h hb => hb.mono h) fun c hc s₂ h₂ =>
            (hparts c hc s₂ (h₁.trans h₂)).2
          refine builds.bind hmembers fun s₂ ts h₂ _ hts => ?_
          exact builds_of_building (building.mono (building_joined hts) fun _ _ _ _ hr => hr.1)
      | object shape =>
          rw [hn] at hparts
          have hfields : builds.Hold s₁
              (shape.fields.mapM fun f => do
                if f.readonly then return f else return { f with type := ← widenAt fuel f.type })
              (shape.fields.mapM fun f => do
                if f.readonly then return f else return { f with type := ← widenAt fuel' f.type })
              fun s' fields => ∀ f ∈ fields, Known s' f.type := by
            refine builds.mapM (fun h hb => hb.mono h) fun f hf s₂ h₂ => ?_
            obtain ⟨hknown, hwiden⟩ := hparts f.type
              (List.mem_append_left _ (List.mem_map_of_mem hf)) s₂ (h₁.trans h₂)
            split
            · exact builds.pure hknown
            · exact builds.bind hwiden fun s₃ r _ _ hr => builds.pure hr
          refine builds.bind hfields fun s₂ fields h₂ _ hfs => builds_intern fun c hc => ?_
          rcases List.mem_append.mp hc with hc | hc
          · obtain ⟨f, hf, rfl⟩ := List.mem_map.mp hc
            exact hfs f hf
          · exact (hparts c (List.mem_append_right _ hc) s₂ (h₁.trans h₂)).1
      | array element =>
          rw [hn] at hparts
          refine builds.bind (hparts element (by simp [Node.components]) s₁ h₁).2 fun s₂ r _ _ hr => ?_
          exact builds_intern (by simpa [Node.components] using hr)
      | function shape =>
          rw [hn] at hparts
          have hresult := (hparts shape.result (by simp [Node.components]) s₁ h₁).2
          refine builds.bind hresult fun s₂ r h₂ _ hr => builds_intern fun c hc => ?_
          rcases List.mem_append.mp hc with hc | hc
          · exact (hparts c (List.mem_append_left _ hc) s₂ (h₁.trans h₂)).1
          · rw [List.mem_singleton.mp hc]
            exact hr
      | _ => exact builds.pure (ht.mono h₁)

theorem Store.Formed.widenAt_eq_widen (hs : s.Formed) {fuel : Nat} (ht : t.index < s.size)
    (h : t.index < fuel) : widenAt fuel t s = widen t s :=
  (builds_widenAt (Nat.lt_succ_self _) h ht hs).1

end widen

end TypeResolution
