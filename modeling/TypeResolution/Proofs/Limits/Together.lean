import TypeResolution.Assignability.Check

/-!
Two runs side by side on one store, from states that belong together. Unless the first run ends in
a marked state, both give the same result, make the same types and end in states that belong
together. A marked state stays marked.
-/

namespace TypeResolution.Limits

variable {σ ε α β γ : Type}

/-- Which states of two runs belong together, and which states of the first run are marked. -/
structure Coupling (σ : Type) where
  rel : σ → σ → Prop
  marked : σ → Prop

/-- The first run ended marked, or both ended alike. -/
def Meet (C : Coupling σ) (r r' : (α × σ) × Store) : Prop :=
  C.marked r.1.2 ∨ r'.1.1 = r.1.1 ∧ r'.2 = r.2 ∧ C.rel r.1.2 r'.1.2

structure StateTogether (C : Coupling σ) (m m' : StateT σ Build α) : Prop where
  stays : ∀ x s, C.marked x → C.marked (m x s).1.2
  same : ∀ x y s, C.rel x y → Meet C (m x s) (m' y s)

theorem stateTogether_pure {C : Coupling σ} (a : α) :
    StateTogether C (pure a : StateT σ Build α) (pure a) :=
  ⟨fun _ _ h => h, fun _ _ _ h => .inr ⟨rfl, rfl, h⟩⟩

/-- The second step may couple the states in another way than the first one. -/
theorem meet_bind {C C' : Coupling σ} (m m' : StateT σ Build α) {f f' : α → StateT σ Build β}
    {x y : σ} {s : Store} (hm : Meet C (m x s) (m' y s))
    (hstays : ∀ a x s, C.marked x → C'.marked (f a x s).1.2)
    (hf : ∀ a x y s, C.rel x y → Meet C' (f a x s) (f' a y s)) :
    Meet C' ((m >>= f) x s) ((m' >>= f') y s) := by
  rcases hm with hmark | ⟨hvalue, hstore, hrel⟩
  · exact .inl (hstays _ _ _ hmark)
  · change Meet C' (f (m x s).1.1 (m x s).1.2 (m x s).2) (f' (m' y s).1.1 (m' y s).1.2 (m' y s).2)
    rw [hvalue, hstore]
    exact hf _ _ _ _ hrel

theorem stateTogether_bind {C : Coupling σ} {m m' : StateT σ Build α} {f f' : α → StateT σ Build β}
    (hm : StateTogether C m m') (hf : ∀ a, StateTogether C (f a) (f' a)) :
    StateTogether C (m >>= f) (m' >>= f') where
  stays x s hx := (hf _).stays _ _ (hm.stays x s hx)
  same x y s hxy := meet_bind m m' (hm.same x y s hxy) (fun a => (hf a).stays) fun a => (hf a).same

/-- Computations that can be run side by side. -/
class Pairs (σ : outParam Type) (M : Type → Type) [Monad M] [MonadLiftT Build M] where
  Together {α : Type} : Coupling σ → M α → M α → Prop
  pure {α : Type} {C : Coupling σ} (a : α) : Together C (pure a) (pure a)
  bind {α β : Type} {C : Coupling σ} {m m' : M α} {f f' : α → M β} :
    Together C m m' → (∀ a, Together C (f a) (f' a)) → Together C (m >>= f) (m' >>= f')
  lift {α : Type} {C : Coupling σ} (m : Build α) : Together C (liftM m) (liftM m)

export Pairs (Together)

instance : Pairs σ (StateT σ Build) where
  Together := StateTogether
  pure := stateTogether_pure
  bind := stateTogether_bind
  lift _ := ⟨fun _ _ h => h, fun _ _ _ h => .inr ⟨rfl, rfl, h⟩⟩

instance : Pairs σ (ExceptT ε (StateT σ Build)) where
  Together C m m' := StateTogether C m.run m'.run
  pure a := stateTogether_pure (Except.ok a)
  bind {α β C m m' f f'} hm hf := by
    have hrest : ∀ r, StateTogether C (ExceptT.bindCont f r) (ExceptT.bindCont f' r) := by
      intro r
      cases r with
      | ok a => exact hf a
      | error e => exact stateTogether_pure (Except.error e)
    exact stateTogether_bind hm hrest
  lift _ := ⟨fun _ _ h => h, fun _ _ _ h => .inr ⟨rfl, rfl, h⟩⟩

section combinators

variable {M : Type → Type} [Monad M] [MonadLiftT Build M] [Pairs σ M] {C : Coupling σ}

theorem together_ite {c : Prop} [Decidable c] {m m' k k' : M α} (hm : Together C m m')
    (hk : Together C k k') : Together C (if c then m else k) (if c then m' else k') := by
  split
  · exact hm
  · exact hk

theorem together_store {f f' : Store → M α} (h : ∀ s, Together C (f s) (f' s)) :
    Together C ((liftM (get : Build Store) : M Store) >>= f)
      ((liftM (get : Build Store) : M Store) >>= f') :=
  Pairs.bind (Pairs.lift _) h

theorem together_mapM [LawfulMonad M] {l : List γ} {f f' : γ → M α}
    (h : ∀ a, Together C (f a) (f' a)) : Together C (l.mapM f) (l.mapM f') := by
  induction l with
  | nil => exact Pairs.pure []
  | cons a rest ih =>
      simp only [List.mapM_cons]
      exact Pairs.bind (h a) fun b => Pairs.bind ih fun bs => Pairs.pure _

theorem together_forM {l : List γ} {f f' : γ → M PUnit} (h : ∀ a, Together C (f a) (f' a)) :
    Together C (l.forM f) (l.forM f') := by
  induction l with
  | nil => exact Pairs.pure _
  | cons a rest ih => exact Pairs.bind (h a) fun _ => ih

theorem together_arrayForM [LawfulMonad M] {l : Array γ} {f f' : γ → M PUnit}
    (h : ∀ a, Together C (f a) (f' a)) : Together C (l.forM f) (l.forM f') := by
  obtain ⟨l⟩ := l
  simp only [Array.forM_eq_forM, List.forM_toArray]
  exact together_forM h

theorem together_allM {l : List γ} {f f' : γ → M Bool} (h : ∀ a, Together C (f a) (f' a)) :
    Together C (l.allM f) (l.allM f') := by
  induction l with
  | nil => exact Pairs.pure _
  | cons a rest ih =>
      refine Pairs.bind (h a) fun b => ?_
      cases b with
      | false => exact Pairs.pure _
      | true => exact ih

theorem together_anyM {l : List γ} {f f' : γ → M Bool} (h : ∀ a, Together C (f a) (f' a)) :
    Together C (l.anyM f) (l.anyM f') := by
  induction l with
  | nil => exact Pairs.pure _
  | cons a rest ih =>
      refine Pairs.bind (h a) fun b => ?_
      cases b with
      | false => exact ih
      | true => exact Pairs.pure _

theorem together_optionMapM [LawfulMonad M] {o : Option γ} {f f' : γ → M α}
    (h : ∀ a, Together C (f a) (f' a)) : Together C (o.mapM f) (o.mapM f') := by
  cases o with
  | none => exact Pairs.pure _
  | some a =>
      simp only [Option.mapM_some, map_eq_pure_bind]
      exact Pairs.bind (h a) fun _ => Pairs.pure _

end combinators

variable {C : Coupling σ}

/-- Steps that look at the state need only look at states that are alike in what they read. -/
theorem together_get (alike : σ → σ → Prop) (hrefl : ∀ x, alike x x)
    (hrel : ∀ x y, C.rel x y → alike x y) {f f' : σ → StateT σ Build α}
    (h : ∀ x y, alike x y → Together C (f x) (f' y)) : Together C (get >>= f) (get >>= f') :=
  ⟨fun x s => (h x x (hrefl x)).stays x s, fun x y s hxy => (h x y (hrel x y hxy)).same x y s hxy⟩

theorem together_modify {f f' : σ → σ} (hstays : ∀ x, C.marked x → C.marked (f x))
    (h : ∀ x y, C.rel x y → C.rel (f x) (f' y)) :
    Together C (modify f : StateT σ Build PUnit) (modify f') :=
  ⟨fun x _ => hstays x, fun x y _ hxy => .inr ⟨rfl, rfl, h x y hxy⟩⟩

/-- Two computations on the store that differ only where the first run gets marked. -/
theorem together_lift {m m' : Build β} {f f' : β → StateT σ Build α}
    (hstays : ∀ b x s, C.marked x → C.marked (f b x s).1.2)
    (h : ∀ s, (∀ x, C.marked (f (m s).1 x (m s).2).1.2) ∨
      (m' s).2 = (m s).2 ∧ Together C (f (m s).1) (f' (m' s).1)) :
    Together C ((liftM m : StateT σ Build β) >>= f) ((liftM m' : StateT σ Build β) >>= f') := by
  refine ⟨fun x s => hstays _ x _, fun x y s hxy => ?_⟩
  rcases h s with hmark | ⟨hstore, hrest⟩
  · exact .inl (hmark x)
  · change Meet C (f (m s).1 x (m s).2) (f' (m' s).1 y (m' s).2)
    rw [hstore]
    exact hrest.same x y _ hxy

section guards

open Recursion

variable {κ : Type} [DecidableEq κ]

/-- How the guards of two runs belong together, given whether the first run has reported a limit. -/
abbrev GuardRel (κ : Type) := Guard κ → Guard κ → Bool → Prop

/-- The answers of two guards that belong together: both let the key in, or both found a cycle, or
the first one hit a limit that is not yet reported and will be marked, or both hit the same limit. -/
inductive Entering (D : Diagnostic → Prop) (G G₁ : GuardRel κ) (reported : Bool) :
    Answer × Guard κ → Answer × Guard κ → Prop
  | entered {g g' : Guard κ} (h : G₁ g g' reported) :
      Entering D G G₁ reported (.entered, g) (.entered, g')
  | cycle {g g' : Guard κ} (h : G g g' reported) :
      Entering D G G₁ reported (.cycle, g) (.cycle, g')
  | marked {a : Answer} {g : Guard κ} {r : Answer × Guard κ}
      (ha : a = .iterationExceeded ∨ a = .depthExceeded) (hreported : reported = false)
      (hD : ∀ args site, D ((Diagnostic.of .evaluationDepthExceeded args).withLocation site)) :
      Entering D G G₁ reported (a, g) r
  | exceeded {a : Answer} {g : Guard κ} (ha : a = .iterationExceeded ∨ a = .depthExceeded)
      (h : ∀ reported, G g g reported) : Entering D G G₁ reported (a, g) (a, g)

/-- Entering a key takes guards from `G` to `G₁`, and leaving it takes them back. -/
structure Guarding (D : Diagnostic → Prop) (G G₁ : GuardRel κ) : Prop where
  enter : ∀ g g' reported key, G g g' reported →
    Entering D G G₁ reported (g.enter key) (g'.enter key)
  leave : ∀ g g' reported key, G₁ g g' reported → G (g.leave key) (g'.leave key) reported
  exceeded : ∀ g g' reported, G g g' reported → g'.exceeded = g.exceeded

/-- Leaving `key` takes guards from `G₁` to `G`. -/
structure Releasing (G G₁ : GuardRel κ) (key : κ) : Prop where
  leave : ∀ g g' reported, G₁ g g' reported → G (g.leave key) (g'.leave key) reported
  exceeded : ∀ g g' reported, G g g' reported → g'.exceeded = g.exceeded

theorem Guarding.releasing {D : Diagnostic → Prop} {G G₁ : GuardRel κ} (h : Guarding D G G₁)
    (key : κ) : Releasing G G₁ key :=
  ⟨fun g g' reported => h.leave g g' reported key, h.exceeded⟩

end guards

end TypeResolution.Limits
