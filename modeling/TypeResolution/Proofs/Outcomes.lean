import Mathlib.Data.List.Forall2
import TypeResolution.Proofs.Store.Formed
import TypeResolution.Type.Normal

/-!
What is to be shown of a computation that adds to the store, and how it is shown step by step.
-/

namespace TypeResolution

open Store

/-- When a computation that starts at a store is said to end as described: the store has grown and
is well formed, and the result is as wanted. -/
structure Outcomes (m : Type → Type) [Monad m] where
  Holds : ∀ {α : Type}, Store → m α → (Store → α → Prop) → Prop
  pure : ∀ {α : Type} {s : Store} {a : α} {Q : Store → α → Prop}, Q s a → Holds s (pure a) Q
  bind : ∀ {α β : Type} {s : Store} {step : m α} {f : α → m β} {Q : Store → α → Prop}
    {Q' : Store → β → Prop}, Holds s step Q →
    (∀ s₁ a, s.Extends s₁ → s₁.Formed → Q s₁ a → Holds s₁ (f a) Q') → Holds s (step >>= f) Q'
  formed : ∀ {α : Type} {s : Store} {step : m α} {Q : Store → α → Prop},
    (s.Formed → Holds s step Q) → Holds s step Q

namespace Outcomes

variable {m : Type → Type} [Monad m] (O : Outcomes m) {s : Store} {α β : Type}

theorem mono [LawfulMonad m] {step : m α} {Q Q' : Store → α → Prop} (h : O.Holds s step Q)
    (hQ : ∀ s₁ a, s.Extends s₁ → s₁.Formed → Q s₁ a → Q' s₁ a) : O.Holds s step Q' := by
  rw [← bind_pure step]
  exact O.bind h fun s₁ a h₁ hs₁ ha => O.pure (hQ s₁ a h₁ hs₁ ha)

theorem mapM [LawfulMonad m] {l : List α} {f : α → m β} {P : Store → α → β → Prop}
    (hmono : ∀ {s₁ s₂ a b}, s₁.Extends s₂ → P s₁ a b → P s₂ a b)
    (h : ∀ a ∈ l, ∀ s₁, s.Extends s₁ → s₁.Formed → O.Holds s₁ (f a) fun s' b => P s' a b) :
    O.Holds s (l.mapM f) fun s' bs => List.Forall₂ (P s') l bs := by
  induction l generalizing s with
  | nil => exact O.pure .nil
  | cons a rest ih =>
      simp only [List.mapM_cons]
      refine O.bind (O.formed (h a (by simp) s (.refl s))) fun s₁ b h₁ _ hb => ?_
      refine O.bind (ih fun c hc s₂ h₂ => h c (by simp [hc]) s₂ (h₁.trans h₂)) fun s₂ bs h₂ _ hbs => ?_
      exact O.pure (.cons (hmono h₂ hb) hbs)

theorem foldlM {l : List α} {f : β → α → m β} {P : Store → List α → β → Prop}
    {b : β} (hb : P s [] b)
    (h : ∀ a ∈ l, ∀ s₁ done b, s.Extends s₁ → s₁.Formed → P s₁ done b →
      O.Holds s₁ (f b a) fun s' b' => P s' (done ++ [a]) b') :
    O.Holds s (l.foldlM f b) fun s' b' => P s' l b' := by
  have hgeneral : ∀ (rest done : List α) (s₁ : Store) (b : β), (∀ a ∈ rest, a ∈ l) →
      s.Extends s₁ → P s₁ done b →
      O.Holds s₁ (rest.foldlM f b) fun s' b' => P s' (done ++ rest) b' := by
    intro rest
    induction rest with
    | nil =>
        intro done s₁ b _ _ hb
        exact O.pure (by simpa using hb)
    | cons a rest ih =>
        intro done s₁ b hrest h₁ hb
        simp only [List.foldlM_cons]
        refine O.bind (O.formed fun hs₁ => h a (hrest a (by simp)) s₁ done b h₁ hs₁ hb)
          fun s₂ b' h₂ _ hb' => ?_
        simpa using ih (done ++ [a]) s₂ b' (fun c hc => hrest c (by simp [hc])) (h₁.trans h₂) hb'
  simpa using hgeneral l [] s b (fun _ => id) (.refl s) hb

end Outcomes

section lists

variable {α β : Type} {R : α → β → Prop} {p : α → Prop} {q : β → Prop} {l : List α} {l' : List β}

theorem forall_right_of_forall₂ (h : List.Forall₂ R l l') (hq : ∀ a b, R a b → q b) :
    ∀ b ∈ l', q b := by
  induction h with
  | nil => simp
  | cons hab _ ih => exact List.forall_mem_cons.mpr ⟨hq _ _ hab, ih⟩

theorem exists_iff_of_forall₂ (h : List.Forall₂ R l l') (hpq : ∀ a b, R a b → (q b ↔ p a)) :
    (∃ b ∈ l', q b) ↔ ∃ a ∈ l, p a := by
  induction h with
  | nil => simp
  | cons hab _ ih => simp only [List.exists_mem_cons_iff, hpq _ _ hab, ih]

theorem map_eq_of_forall₂ {γ : Type} {f : α → γ} {g : β → γ} (h : List.Forall₂ R l l')
    (hfg : ∀ a b, R a b → g b = f a) : l'.map g = l.map f := by
  induction h with
  | nil => rfl
  | cons hab _ ih => rw [List.map_cons, List.map_cons, hfg _ _ hab, ih]

theorem forall_iff_of_forall₂ (h : List.Forall₂ R l l') (hpq : ∀ a b, R a b → (q b ↔ p a)) :
    (∀ b ∈ l', q b) ↔ ∀ a ∈ l, p a := by
  induction h with
  | nil => simp
  | cons hab _ ih => simp only [List.forall_mem_cons, hpq _ _ hab, ih]

end lists

/-- Computations on the store. -/
def building : Outcomes Build where
  Holds s m Q := s.Formed → s.Extends (m s).2 ∧ (m s).2.Formed ∧ Q (m s).2 (m s).1
  pure h hs := ⟨.refl _, hs, h⟩
  bind hm hf hs := by
    obtain ⟨hgrows, hformed, hQ⟩ := hm hs
    obtain ⟨hgrows', hformed', hQ'⟩ := hf _ _ hgrows hformed hQ hformed
    exact ⟨hgrows.trans hgrows', hformed', hQ'⟩
  formed h hs := h hs hs

/-- What is reported does not matter. -/
def reporting : Outcomes Reporting where
  Holds s m Q := ∀ ds, building.Holds s (m ds) fun s' r => Q s' r.1
  pure h _ := building.pure h
  bind hm hf ds := building.bind (hm ds) fun s₁ r h₁ hs₁ hQ => hf s₁ r.1 h₁ hs₁ hQ r.2
  formed h ds := building.formed fun hs => h hs ds

section runs

variable {s : Store} {α β : Type} {Q : Store → α → Prop} {Q' : Store → β → Prop}

theorem building_quiet {m : Build α} (halike : s.Alike (m s).2) (h : Q (m s).2 (m s).1) :
    building.Holds s m Q :=
  fun hs => ⟨halike.toExtends, halike.formed hs, h⟩

theorem building_and {m : Build α} {P : Store → α → Prop} (hP : building.Holds s m P)
    (hQ : building.Holds s m Q) : building.Holds s m fun s' a => P s' a ∧ Q s' a := by
  intro hs
  obtain ⟨hgrows, hformed, hp⟩ := hP hs
  exact ⟨hgrows, hformed, hp, (hQ hs).2.2⟩

theorem reporting_and {m : Reporting α} {P : Store → α → Prop} (hP : reporting.Holds s m P)
    (hQ : reporting.Holds s m Q) : reporting.Holds s m fun s' a => P s' a ∧ Q s' a :=
  fun ds => building_and (hP ds) (hQ ds)

theorem building_intern {n : Node} (hn : ∀ c ∈ n.components, c.index < s.size) :
    building.Holds s (Build.intern n) fun s' t =>
      t.index < s'.size ∧ (s'.node t).identity = n.identity :=
  fun hs => ⟨extends_intern, hs.intern hn, hs.node_intern⟩

theorem building_node {n : Node} (hn : ∀ c ∈ n.components, c.index < s.size)
    (hobject : ∀ o, n ≠ .object o) :
    building.Holds s (Build.intern n) fun s' t => t.index < s'.size ∧ s'.node t = n :=
  building.mono (building_intern hn) fun _ _ _ _ ht =>
    ⟨ht.1, Node.eq_of_identity_eq ht.2 hobject⟩

/-- What is made of members depends on their order. -/
theorem building_members {none : TypeId} {node : List TypeId → Node} {ts : List TypeId}
    {Q : Store → TypeId → Prop}
    (h : building.Holds s (Build.ofMembers none node (TypeId.sortUnique s.numbers ts)) Q) :
    building.Holds s (do Build.ofMembers none node (← Build.inOrder ts)) Q :=
  h

theorem building_get {f : Store → Build β} (h : building.Holds s (f s) Q') :
    building.Holds s (get >>= f) Q' :=
  h

theorem reporting_lift {m : Build α} (hm : building.Holds s m Q) : reporting.Holds s (liftM m) Q :=
  fun _ => building.bind hm fun _ _ _ _ h => building.pure h

theorem reporting_store {f : Store → Reporting β} (h : s.Formed → reporting.Holds s (f s) Q') :
    reporting.Holds s (getThe Store >>= f) Q' :=
  fun ds hs => h hs ds hs

end runs

end TypeResolution
