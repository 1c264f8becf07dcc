import TypeResolution.Proofs.Store.Formed

/-!
Steps of a computation that keeps a state beside the store and may hit a limit. What a step says
about types is meant in a later store, in which all that is made has its place. A limit that was
hit stays hit, and what a step says may depend on it.
-/

namespace TypeResolution

open Store

variable {α β σ : Type} {V : Store → α → Prop} {V' : Store → β → Prop} {limited : σ → Bool}
  {F s : Store} {I : σ → Prop}

/-- How a step ends. `V` holds of its result at once, `Q` in the later store `F`. -/
structure Ends (V : Store → α → Prop) (limited : σ → Bool) (F : Store) (I : σ → Prop)
    (Q : Bool → α → Prop) (s : Store) (x : σ) (end_ : (α × σ) × Store) : Prop where
  grows : s.Extends end_.2
  formed : end_.2.Formed
  ok : V end_.2 end_.1.1
  ready : end_.2.Extends F → I end_.1.2
  limit : limited x → limited end_.1.2
  post : end_.2.Extends F → Q (limited end_.1.2) end_.1.1

/-- A step from the store `s` on keeps `I` and has a result as described. -/
def Steps (V : Store → α → Prop) (limited : σ → Bool) (F : Store) (I : σ → Prop) (s : Store)
    (m : StateT σ Build α) (Q : Bool → α → Prop) : Prop :=
  s.Formed → ∀ x, (s.Extends F → I x) → Ends V limited F I Q s x (m x s)

namespace Steps

variable {m : StateT σ Build α} {f : α → StateT σ Build β} {Q : Bool → α → Prop}
  {Q' : Bool → β → Prop}

theorem bind (hm : Steps V limited F I s m Q)
    (hf : ∀ s₁ a l, s.Extends s₁ → V s₁ a → (s₁.Extends F → Q l a) →
      Steps V' limited F I s₁ (f a) fun l' b => (l = true → l' = true) → Q' l' b) :
    Steps V' limited F I s (m >>= f) Q' := by
  intro hs x hx
  have h₁ := hm hs x hx
  have h₂ := hf _ _ _ h₁.grows h₁.ok h₁.post h₁.formed _ h₁.ready
  exact ⟨h₁.grows.trans h₂.grows, h₂.formed, h₂.ok, h₂.ready, fun h => h₂.limit (h₁.limit h),
    fun h => h₂.post h h₂.limit⟩

theorem mono {Q₁ : Bool → α → Prop} (hm : Steps V limited F I s m Q)
    (h : s.Extends F → ∀ l a, Q l a → Q₁ l a) : Steps V limited F I s m Q₁ := by
  intro hs x hx
  have h₁ := hm hs x hx
  exact { h₁ with post := fun hF => h (h₁.grows.trans hF) _ _ (h₁.post hF) }

theorem pure {a : α} (ha : s.Formed → V s a) (h : ∀ l, Q l a) :
    Steps V limited F I s (pure a) Q :=
  fun hs _ hx => ⟨.refl s, hs, ha hs, hx, id, fun _ => h _⟩

theorem result {a : α} (ha : s.Formed → V s a) :
    Steps V limited F I s (Pure.pure a) fun _ b => b = a :=
  Steps.pure ha fun _ => rfl

/-- A step that only looks at the store. -/
theorem store {f : Store → StateT σ Build β} (h : Steps V' limited F I s (f s) Q') :
    Steps V' limited F I s (getThe Store >>= f) Q' :=
  h

theorem node {t : TypeId} {f : Node → StateT σ Build β}
    (h : Steps V' limited F I s (f (s.node t)) Q') :
    Steps V' limited F I s (Build.node t >>= f) Q' :=
  h

/-- A step that only looks at the state. -/
theorem get {f : σ → StateT σ Build β}
    (h : ∀ x, (s.Extends F → I x) → Steps V' limited F I s (f x) Q') :
    Steps V' limited F I s (get >>= f) Q' :=
  fun hs x hx => h x hx hs x hx

/-- A computation on the store alone before a step. -/
theorem lift {γ : Type} {m : Build γ} {f : γ → StateT σ Build β} (hgrows : s.Extends (m s).2)
    (hformed : (m s).2.Formed) (h : Steps V' limited F I (m s).2 (f (m s).1) Q') :
    Steps V' limited F I s (liftM m >>= f) Q' := by
  intro _ x hx
  have hend := h hformed x fun hF => hx (hgrows.trans hF)
  exact { hend with grows := hgrows.trans hend.grows }

/-- A step that only changes the state. -/
theorem modify {V : Store → PUnit → Prop} {g : σ → σ} (hV : ∀ s a, V s a) (hI : ∀ x, I x → I (g x))
    (hlimit : ∀ x, limited (g x) = limited x) :
    Steps V limited F I s (modify g : StateT σ Build PUnit) fun _ _ => True :=
  fun hs x hx => ⟨.refl s, hs, hV _ _, fun h => hI x (hx h), fun h => (hlimit x).trans h,
    fun _ => trivial⟩

end Steps

end TypeResolution
