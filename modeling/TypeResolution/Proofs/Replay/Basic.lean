import TypeResolution.Proofs.Replay.Mirror

/-!
Two runs of a computation side by side. The second one starts from a store that shows the types of
the first one, perhaps under other ids, or in which all that the first one makes is already there.
It follows the first one when it ends with the same values, renamed. Source tags and diagnostics are
the same where the link asks for it, and may differ otherwise.
-/

namespace TypeResolution.Replay

open Store

/-- How two runs are compared. -/
structure Link where
  /-- The aliases that may be named. -/
  names : String → Prop
  /-- The runs are never cancelled. -/
  calm : Prop
  /-- Source tags and diagnostics are the same. -/
  exact : Prop
  /-- The ids that the types of the first run have in the second one. -/
  rename : Renaming
  /-- What two stores are compared in. -/
  World : Type
  beside : World → Store → Store → Prop
  /-- The first run stays within the world. -/
  fits : World → Store → Prop
  fits_back {w : World} {s s' : Store} : s.Extends s' → fits w s' → fits w s
  mirrors {w : World} {s s' : Store} : beside w s s' → fits w s → s.Mirrors exact rename s'
  intern {w : World} {s s' : Store} {n : Node} : s.Formed → (∀ c ∈ n.components, c.index < s.size) →
    beside w s s' → fits w (s.intern n).2 →
    beside w (s.intern n).2 (s'.intern (n.mapIds rename)).2 ∧
      (s'.intern (n.mapIds rename)).1 = rename (s.intern n).1
  record {w : World} {s s' : Store} {p : Place} {tag : SourceTag} : exact → beside w s s' →
    p.owner.index < s.size →
    beside w (s.recordOrigin p tag) (s'.recordOrigin (p.mapIds rename) tag)
  quiet {w : World} {s s₁ s' s₁' : Store} : ¬exact → s.Alike s₁ → s'.Alike s₁' →
    beside w s s' → beside w s₁ s₁'

namespace Link

instance : CoeFun Link fun _ => TypeId → TypeId := ⟨fun L => L.rename⟩

/-- Ids are kept. The second run starts from the same types as the first one, or later, in a store
in which all that the first one makes is already there. -/
@[reducible] def plain (names : String → Prop) (calm : Prop) : Link where
  names := names
  calm := calm
  exact := False
  rename := .same
  World := Option Store
  beside later s s' := (later.getD s).Alike s'
  fits later s := s.Extends (later.getD s)
  fits_back {w _ _} h hfits := by
    cases w with
    | none => exact .refl _
    | some _ => exact h.trans hfits
  mirrors hbeside hfits := .of_extends (hfits.trans hbeside.toExtends)
  intern {w s s' n} _ _ hbeside hfits := by
    have hsame : n.mapIds Renaming.same = n := n.mapIds_same
    rw [hsame]
    cases w with
    | none =>
        obtain ⟨hid, halike⟩ := hbeside.intern (n := n)
        exact ⟨halike, hid⟩
    | some later =>
        rw [intern_again (hfits.trans hbeside.toExtends)]
        exact ⟨hbeside, rfl⟩
  record := False.elim
  quiet {w _ _ _ _} _ hs hs' hbeside := by
    cases w with
    | none => exact hs.symm.trans (hbeside.trans hs')
    | some _ => exact hbeside.trans hs'

/-- Only the names matter. -/
abbrev free (names : String → Prop) : Link := plain names False

/-- The pair of the second run. -/
abbrev both (L : Link) (x : TypeId × TypeId) : TypeId × TypeId := (L x.1, L x.2)

theorem both_injective (L : Link) : Function.Injective L.both := fun _ _ h =>
  Prod.ext (L.rename.injective (congrArg Prod.fst h)) (L.rename.injective (congrArg Prod.snd h))

end Link

variable {P : String → Prop} {L : Link} {α β σ ε : Type} {s : Store}

/-- Values that are fit for a store, and their image under other ids; what is fit stays so while the
store grows. -/
class Value (P : String → Prop) (α : Type) where
  image : (TypeId → TypeId) → α → α
  Ok : Store → α → Prop
  mono {s s' : Store} {a : α} : s.Extends s' → Ok s a → Ok s' a
  image_same (a : α) : image (fun t => t) a = a

/-- What the second run has in the place of a value. -/
def Link.image (L : Link) [Value L.names α] (a : α) : α := Value.image L.names L a

@[simp] theorem Link.image_plain (calm : Prop) [Value P α] (a : α) : (Link.plain P calm).image a = a :=
  Value.image_same a

/-- Values of the first and the second run that belong together. -/
class Paired (L : Link) (α : Type) where
  Same : Store → α → α → Prop
  mono {s s' : Store} {a b : α} : s.Extends s' → Same s a b → Same s' a b

export Value (Ok)

export Paired (Same)

instance Value.toPaired [Value L.names α] : Paired L α where
  Same s a b := b = L.image a ∧ Ok L.names s a
  mono h hab := ⟨hab.1, Value.mono h hab.2⟩

instance [Paired L α] [Paired L β] : Paired L (α × β) where
  Same s a b := Same L s a.1 b.1 ∧ Same L s a.2 b.2
  mono h hab := ⟨Paired.mono h hab.1, Paired.mono h hab.2⟩

inductive ExceptSame [Paired L ε] [Paired L α] (s : Store) : Except ε α → Except ε α → Prop
  | ok {a b : α} : Same L s a b → ExceptSame s (.ok a) (.ok b)
  | error {e e' : ε} : Same L s e e' → ExceptSame s (.error e) (.error e')

instance [Paired L ε] [Paired L α] : Paired L (Except ε α) where
  Same s a b := ExceptSame (L := L) s a b
  mono h hab := by
    cases hab with
    | ok h' => exact .ok (Paired.mono h h')
    | error h' => exact .error (Paired.mono h h')

/-- Values without types. -/
@[reducible] def Value.plain : Value P α :=
  ⟨fun _ a => a, fun _ _ => True, fun _ _ => trivial, fun _ => rfl⟩

/-- Values that are the same where the link asks for it. -/
@[reducible] def Paired.exactly : Paired L α := ⟨fun _ a b => L.exact → b = a, fun _ h => h⟩

instance : Value P Unit := Value.plain

instance : Value P Bool := Value.plain

instance : Value P Nat := Value.plain

instance : Value P String := Value.plain

instance : Paired L (Option SourceTag) := Paired.exactly

instance : Value P TypeId :=
  ⟨fun f t => f t, fun s t => s.Closed P t, fun h ht => h.closed ht, fun _ => rfl⟩

instance : Value P Node :=
  ⟨Node.mapIds, fun s n => n.Closed P s, fun h hn => h.closedNode hn, Node.mapIds_same⟩

instance [Value P α] : Value P (List α) where
  image f l := l.map (Value.image P f)
  Ok s l := ∀ a ∈ l, Ok P s a
  mono h hl a ha := Value.mono h (hl a ha)
  image_same l := List.map_id'' Value.image_same l

instance [Value P α] : Value P (Option α) where
  image f o := o.map (Value.image P f)
  Ok s o := ∀ a, o = some a → Ok P s a
  mono h ho a ha := Value.mono h (ho a ha)
  image_same o := by
    cases o with
    | none => rfl
    | some a => exact congrArg some (Value.image_same a)

@[simp] theorem image_type (t : TypeId) : L.image t = L t := rfl

@[simp] theorem image_types (ts : List TypeId) : L.image ts = ts.map L := rfl

@[simp] theorem image_type? (t : Option TypeId) : L.image t = t.map L := rfl

@[simp] theorem image_node (n : Node) : L.image n = n.mapIds L := rfl

@[simp] theorem image_bool (b : Bool) : L.image b = b := rfl

@[simp] theorem image_text (a : String) : L.image a = a := rfl

/-- Running a computation on the stores of the two runs. -/
structure Build.Follows [Paired L α] (s : Store) (m m' : Build α) : Prop where
  grows : s.Extends (m s).2
  formed : (m s).2.Formed
  partner : ∃ b, Same L (m s).2 (m s).1 b
  along : ∀ w s', L.beside w s s' → L.fits w (m s).2 →
    L.beside w (m s).2 (m' s').2 ∧ Same L (m s).2 (m s).1 (m' s').1

section plain

variable {calm : Prop} [Paired (.plain P calm) α] {m m' : Build α}

theorem Build.Follows.of_plain (hgrows : s.Extends (m s).2) (hformed : (m s).2.Formed)
    (hbeside : ∀ s', s.Alike s' →
      (m s).2.Alike (m' s').2 ∧ Same (.plain P calm) (m s).2 (m s).1 (m' s').1)
    (hlater : ∀ s', (m s).2.Extends s' →
      s'.Alike (m' s').2 ∧ Same (.plain P calm) (m s).2 (m s).1 (m' s').1) :
    Build.Follows (L := .plain P calm) s m m' where
  grows := hgrows
  formed := hformed
  partner := ⟨_, (hbeside s (.refl s)).2⟩
  along later s' halike hext := by
    cases later with
    | none => exact hbeside s' halike
    | some later =>
        obtain ⟨halike', hsame⟩ := hlater s' (hext.trans halike.toExtends)
        exact ⟨halike.trans halike', hsame⟩

/-- The second run starts from the same types. -/
theorem Build.Follows.beside (h : Build.Follows (L := .plain P calm) s m m') (s' : Store)
    (hs' : s.Alike s') :
    (m s).2.Alike (m' s').2 ∧ Same (.plain P calm) (m s).2 (m s).1 (m' s').1 :=
  h.along none s' hs' (.refl _)

/-- The second run finds everything there. -/
theorem Build.Follows.later (h : Build.Follows (L := .plain P calm) s m m') (s' : Store)
    (hs' : (m s).2.Extends s') :
    s'.Alike (m' s').2 ∧ Same (.plain P calm) (m s).2 (m s).1 (m' s').1 :=
  h.along (some s') s' (.refl s') hs'

end plain

/-- Computations whose runs can be compared. -/
class Runs (L : Link) (M : Type → Type) [Monad M] [MonadLiftT Build M] where
  Follows {α : Type} [Paired L α] : Store → M α → M α → Prop
  ofFormed {α : Type} [Paired L α] {s : Store} {m m' : M α} :
    (s.Formed → Follows s m m') → Follows s m m'
  pure {α : Type} [Paired L α] {s : Store} {a b : α} :
    Same L s a b → Follows s (pure a : M α) (pure b)
  bind {α β : Type} [Paired L α] [Paired L β] {s : Store} {m m' : M α} {f f' : α → M β} :
    Follows s m m' →
    (∀ s₁, s.Extends s₁ → s₁.Formed → ∀ a b, Same L s₁ a b → Follows s₁ (f a) (f' b)) →
    Follows s (m >>= f) (m' >>= f')
  store {α : Type} [Paired L α] {s : Store} {f f' : Store → M α} :
    (∀ s', s.Mirrors L.exact L.rename s' → Follows s (f s) (f' s')) →
    Follows s ((liftM (get : Build Store) : M Store) >>= f)
      ((liftM (get : Build Store) : M Store) >>= f')
  lift {α : Type} [Paired L α] {s : Store} {m m' : Build α} :
    (s.Formed → Build.Follows (L := L) s m m') → Follows s (liftM m : M α) (liftM m')

export Runs (Follows)

instance : Runs L Build where
  Follows s m m' := s.Formed → Build.Follows (L := L) s m m'
  ofFormed h hs := h hs hs
  pure h hs := ⟨.refl _, hs, ⟨_, h⟩, fun _ _ hbeside _ => ⟨hbeside, h⟩⟩
  bind {α β _ _ s m m' f f'} hm hf hs := by
    have h₁ := hm hs
    have h₂ := fun a b h => hf (m s).2 h₁.grows h₁.formed a b h h₁.formed
    obtain ⟨b, hb⟩ := h₁.partner
    have hg := h₂ _ _ hb
    refine ⟨h₁.grows.trans hg.grows, hg.formed, hg.partner, fun w s' hbeside hfits => ?_⟩
    obtain ⟨hbeside', hsame⟩ := h₁.along w s' hbeside (L.fits_back hg.grows hfits)
    exact (h₂ _ _ hsame).along w _ hbeside' hfits
  store {α _ s f f'} h hs := by
    obtain ⟨s₀, hs₀⟩ := exists_mirrors L.exact L.rename s
    have h₀ := h s₀ hs₀ hs
    refine ⟨h₀.grows, h₀.formed, h₀.partner, fun w s' hbeside hfits => ?_⟩
    exact (h s' (L.mirrors hbeside (L.fits_back h₀.grows hfits)) hs).along w s' hbeside hfits
  lift h := h

section transformers

variable {M : Type → Type} [Monad M] [LawfulMonad M] [MonadLiftT Build M] [Runs L M]

instance [Paired L σ] : Runs L (StateT σ M) where
  Follows s m m' := ∀ x y, Same L s x y → Follows L s (m x) (m' y)
  ofFormed h x y hxy := Runs.ofFormed fun hs => h hs x y hxy
  pure h x y hxy := Runs.pure ⟨h, hxy⟩
  bind {α β _ _ s m m' f f'} hm hf x y hxy := by
    refine Runs.bind (hm x y hxy) fun s₁ h₁ hs₁ a b hab => ?_
    exact hf s₁ h₁ hs₁ a.1 b.1 hab.1 a.2 b.2 hab.2
  store {α _ s f f'} h x y hxy := by
    have hrun (g : Store → StateT σ M α) (z : σ) :
        ((liftM (get : Build Store) : StateT σ M Store) >>= g) z =
          (liftM (get : Build Store) : M Store) >>= fun st => g st z := by
      change ((liftM (get : Build Store) : M Store) >>= fun st => Pure.pure (st, z)) >>=
        (fun p => g p.1 p.2) = _
      simp only [bind_assoc, pure_bind]
    rw [hrun, hrun]
    exact Runs.store fun s' hs' => h s' hs' x y hxy
  lift {α _ s m m'} h x y hxy := by
    refine Runs.bind (Runs.lift h) fun s₁ h₁ _ a b hab => ?_
    exact Runs.pure ⟨hab, Paired.mono h₁ hxy⟩

instance [Paired L ε] : Runs L (ExceptT ε M) where
  Follows s m m' := Follows L s m.run m'.run
  ofFormed h := Runs.ofFormed h
  pure h := Runs.pure (.ok h)
  bind {α β _ _ s m m' f f'} hm hf := by
    refine Runs.bind hm fun s₁ h₁ hs₁ a b hab => ?_
    cases hab with
    | ok h => exact hf s₁ h₁ hs₁ _ _ h
    | error h => exact Runs.pure (.error h)
  store {α _ s f f'} h := by
    have hrun (g : Store → ExceptT ε M α) :
        ((liftM (get : Build Store) : ExceptT ε M Store) >>= g).run =
          (liftM (get : Build Store) : M Store) >>= fun st => (g st).run := by
      change ((Except.ok <$> (liftM (get : Build Store) : M Store)) >>= _) = _
      simp only [map_eq_pure_bind, bind_assoc, pure_bind]
      rfl
    rw [hrun, hrun]
    exact Runs.store h
  lift {α _ s m m'} h := by
    change Follows L s (Except.ok <$> (liftM m : M α)) (Except.ok <$> (liftM m' : M α))
    simp only [map_eq_pure_bind]
    exact Runs.bind (Runs.lift h) fun s₁ _ _ a b hab => Runs.pure (.ok hab)

end transformers

section combinators

variable {M : Type → Type} [Monad M] [MonadLiftT Build M] [Runs L M] {γ δ : Type}

theorem bind_value [Value L.names α] [Paired L β] {m m' : M α} {f f' : α → M β}
    (hm : Follows L s m m')
    (hf : ∀ s₁, s.Extends s₁ → s₁.Formed → ∀ a, Ok L.names s₁ a →
      Follows L s₁ (f a) (f' (L.image a))) :
    Follows L s (m >>= f) (m' >>= f') := by
  refine Runs.bind hm fun s₁ h₁ hs₁ a b hab => ?_
  obtain ⟨rfl, ha⟩ := hab
  exact hf s₁ h₁ hs₁ a ha

theorem pure_value [Value L.names α] {a : α} (h : Ok L.names s a) :
    Follows L s (pure a : M α) (pure (L.image a)) :=
  Runs.pure ⟨rfl, h⟩

/-- A value without types. -/
theorem pure_plain {a : α} : @Follows L M _ _ _ α (@Value.toPaired L α .plain) s (pure a) (pure a) :=
  @Runs.pure L M _ _ _ α (@Value.toPaired L α .plain) s a a ⟨rfl, trivial⟩

theorem follows_ite [Paired L α] {c : Prop} [Decidable c] {m m' k k' : M α}
    (hm : c → Follows L s m m') (hk : ¬c → Follows L s k k') :
    Follows L s (if c then m else k) (if c then m' else k') := by
  split
  · exact hm ‹_›
  · exact hk ‹_›

/-- Two conditions that agree. -/
theorem follows_ite_iff [Paired L α] {c c' : Prop} [Decidable c] [Decidable c'] {m m' k k' : M α}
    (hc : c' ↔ c) (hm : c → Follows L s m m') (hk : ¬c → Follows L s k k') :
    Follows L s (if c then m else k) (if c' then m' else k') := by
  by_cases h : c
  · rw [if_pos h, if_pos (hc.mpr h)]
    exact hm h
  · rw [if_neg h, if_neg (mt hc.mp h)]
    exact hk h

theorem follows_mapM_map [LawfulMonad M] [Value L.names α] {l : List γ} {g : γ → δ} {f : γ → M α}
    {f' : δ → M α} (h : ∀ a ∈ l, ∀ s₁, s.Extends s₁ → Follows L s₁ (f a) (f' (g a))) :
    Follows L s (l.mapM f) ((l.map g).mapM f') := by
  induction l generalizing s with
  | nil => exact pure_value (by simp [Ok])
  | cons a rest ih =>
      simp only [List.map_cons, List.mapM_cons]
      refine bind_value (h a (by simp) s (.refl s)) fun s₁ h₁ _ b hb => ?_
      have hrest : ∀ a ∈ rest, ∀ s₂, s₁.Extends s₂ → Follows L s₂ (f a) (f' (g a)) :=
        fun a ha s₂ h₂ => h a (by simp [ha]) s₂ (h₁.trans h₂)
      refine bind_value (ih hrest) fun s₂ h₂ _ bs hbs => pure_value ?_
      intro c hc
      rcases List.mem_cons.mp hc with rfl | hc
      · exact Value.mono h₂ hb
      · exact hbs c hc

theorem follows_mapM [LawfulMonad M] [Value L.names α] {l : List γ} {f f' : γ → M α}
    (h : ∀ a ∈ l, ∀ s₁, s.Extends s₁ → Follows L s₁ (f a) (f' a)) :
    Follows L s (l.mapM f) (l.mapM f') := by
  simpa only [List.map_id] using follows_mapM_map (g := id) h

theorem follows_foldlM_map [Paired L β] {l : List γ} {g : γ → δ} {f : β → γ → M β}
    {f' : β → δ → M β}
    (h : ∀ a ∈ l, ∀ s₁, s.Extends s₁ → ∀ b c, Same L s₁ b c → Follows L s₁ (f b a) (f' c (g a)))
    {b c : β} (hbc : Same L s b c) : Follows L s (l.foldlM f b) ((l.map g).foldlM f' c) := by
  induction l generalizing s b c with
  | nil => exact Runs.pure hbc
  | cons a rest ih =>
      simp only [List.map_cons, List.foldlM_cons]
      refine Runs.bind (h a (by simp) s (.refl s) b c hbc) fun s₁ h₁ _ b₁ c₁ h' => ?_
      exact ih (fun a ha s₂ h₂ => h a (by simp [ha]) s₂ (h₁.trans h₂)) h'

theorem follows_foldlM [Paired L β] {l : List γ} {f f' : β → γ → M β}
    (h : ∀ a ∈ l, ∀ s₁, s.Extends s₁ → ∀ b c, Same L s₁ b c → Follows L s₁ (f b a) (f' c a))
    {b c : β} (hbc : Same L s b c) : Follows L s (l.foldlM f b) (l.foldlM f' c) := by
  simpa only [List.map_id] using follows_foldlM_map (g := id) h hbc

theorem follows_forM_map {l : List γ} {g : γ → δ} {f : γ → M Unit} {f' : δ → M Unit}
    (h : ∀ a ∈ l, ∀ s₁, s.Extends s₁ → Follows L s₁ (f a) (f' (g a))) :
    Follows L s (l.forM f) ((l.map g).forM f') := by
  induction l generalizing s with
  | nil => exact pure_value trivial
  | cons a rest ih =>
      refine bind_value (h a (by simp) s (.refl s)) fun s₁ h₁ _ _ _ => ?_
      exact ih fun a ha s₂ h₂ => h a (by simp [ha]) s₂ (h₁.trans h₂)

theorem follows_forM {l : List γ} {f f' : γ → M Unit}
    (h : ∀ a ∈ l, ∀ s₁, s.Extends s₁ → Follows L s₁ (f a) (f' a)) :
    Follows L s (l.forM f) (l.forM f') := by
  simpa only [List.map_id] using follows_forM_map (g := id) h

theorem follows_arrayForM {l : Array γ} {f f' : γ → M Unit}
    (h : ∀ a s₁, s.Extends s₁ → Follows L s₁ (f a) (f' a)) :
    Follows L s (l.forM f) (l.forM f') := by
  obtain ⟨l⟩ := l
  simp only [Array.forM_eq_forM, List.forM_toArray]
  exact follows_forM fun a _ => h a

theorem follows_forM_quiet [LawfulMonad M] {l l' : List γ} {f f' : γ → M PUnit}
    (h : ∀ a s, Follows L s (f a) (pure ())) (h' : ∀ a s, Follows L s (pure ()) (f' a)) :
    Follows L s (l.forM f) (l'.forM f') := by
  induction l generalizing s with
  | nil =>
      induction l' generalizing s with
      | nil => exact pure_value trivial
      | cons a rest ih =>
          rw [← pure_bind () fun _ => [].forM f]
          exact bind_value (h' a s) fun s₁ _ _ _ _ => ih
  | cons a rest ih =>
      rw [← pure_bind () fun _ => l'.forM f']
      exact bind_value (h a s) fun s₁ _ _ _ _ => ih

theorem follows_arrayForM_quiet [LawfulMonad M] {l l' : Array γ} {f f' : γ → M PUnit}
    (h : ∀ a s, Follows L s (f a) (pure ())) (h' : ∀ a s, Follows L s (pure ()) (f' a)) :
    Follows L s (l.forM f) (l'.forM f') := by
  obtain ⟨l⟩ := l
  obtain ⟨l'⟩ := l'
  simp only [Array.forM_eq_forM, List.forM_toArray]
  exact follows_forM_quiet h h'

theorem follows_allM_map {l : List γ} {g : γ → δ} {f : γ → M Bool} {f' : δ → M Bool}
    (h : ∀ a ∈ l, ∀ s₁, s.Extends s₁ → Follows L s₁ (f a) (f' (g a))) :
    Follows L s (l.allM f) ((l.map g).allM f') := by
  induction l generalizing s with
  | nil => exact pure_value trivial
  | cons a rest ih =>
      refine bind_value (h a (by simp) s (.refl s)) fun s₁ h₁ _ b _ => ?_
      cases b with
      | false => exact pure_value trivial
      | true => exact ih fun a ha s₂ h₂ => h a (by simp [ha]) s₂ (h₁.trans h₂)

theorem follows_anyM_map {l : List γ} {g : γ → δ} {f : γ → M Bool} {f' : δ → M Bool}
    (h : ∀ a ∈ l, ∀ s₁, s.Extends s₁ → Follows L s₁ (f a) (f' (g a))) :
    Follows L s (l.anyM f) ((l.map g).anyM f') := by
  induction l generalizing s with
  | nil => exact pure_value trivial
  | cons a rest ih =>
      refine bind_value (h a (by simp) s (.refl s)) fun s₁ h₁ _ b _ => ?_
      cases b with
      | true => exact pure_value trivial
      | false => exact ih fun a ha s₂ h₂ => h a (by simp [ha]) s₂ (h₁.trans h₂)

theorem follows_optionMapM_map [LawfulMonad M] [Value L.names α] {o : Option γ} {g : γ → δ}
    {f : γ → M α} {f' : δ → M α} (h : ∀ a, o = some a → Follows L s (f a) (f' (g a))) :
    Follows L s (o.mapM f) ((o.map g).mapM f') := by
  cases o with
  | none => exact pure_value (by simp [Ok])
  | some a =>
      simp only [Option.map_some, Option.mapM_some, map_eq_pure_bind]
      refine bind_value (h a rfl) fun s₁ _ _ b hb => pure_value ?_
      rintro c ⟨⟩
      exact hb

theorem follows_optionMapM [LawfulMonad M] [Value L.names α] {o : Option γ} {f f' : γ → M α}
    (h : ∀ a, o = some a → Follows L s (f a) (f' a)) :
    Follows L s (o.mapM f) (o.mapM f') := by
  simpa only [Option.map_id_fun, id] using follows_optionMapM_map (g := id) h

theorem follows_throw [LawfulMonad M] [Paired L ε] [Paired L α] {e e' : ε} (h : Same L s e e') :
    Follows L s (throw e : ExceptT ε M α) (throw e') :=
  Runs.pure (M := M) (ExceptSame.error h)

section state

variable [LawfulMonad M] [Paired L σ]

theorem follows_stateLift [Paired L α] {m m' : M α} (h : Follows L s m m') :
    Follows L s (liftM m : StateT σ M α) (liftM m') := by
  intro x y hxy
  exact Runs.bind h fun s₁ h₁ _ a b hab => Runs.pure ⟨hab, Paired.mono h₁ hxy⟩

theorem follows_run [Paired L α] {m m' : StateT σ M α} (h : Follows L s m m') {x y : σ}
    (hxy : Same L s x y) : Follows L s (m x) (m' y) :=
  h x y hxy

theorem follows_get : Follows L s (get : StateT σ M σ) get :=
  fun _ _ h => Runs.pure ⟨h, h⟩

/-- Looking at the state leaves the store as it is. -/
theorem follows_getThen [Paired L α] {k k' : σ → StateT σ M α}
    (h : ∀ x y, Same L s x y → Follows L s (k x x) (k' y y)) :
    Follows L s (get >>= k) (get >>= k') := by
  have hrun (k : σ → StateT σ M α) (x : σ) : (get >>= k) x = k x x := by
    change (pure (x, x) >>= fun p : σ × σ => k p.1 p.2) = _
    rw [pure_bind]
  intro x y hxy
  rw [hrun, hrun]
  exact h x y hxy

theorem follows_modify {f f' : σ → σ} (h : ∀ x y, Same L s x y → Same L s (f x) (f' y)) :
    Follows L s (modify f : StateT σ M PUnit) (modify f') :=
  fun x y hxy => Runs.pure ⟨⟨rfl, trivial⟩, h x y hxy⟩

end state

end combinators

/-- A step that only looks at the store. -/
theorem follows_read [Paired L α] {m m' : Build α} (hm : ∀ s : Store, (m s).2 = s)
    (hm' : ∀ s : Store, (m' s).2 = s)
    (h : ∀ s', s.Mirrors L.exact L.rename s' → Same L s (m s).1 (m' s').1) : Follows L s m m' := by
  intro hs
  obtain ⟨s₀, hs₀⟩ := exists_mirrors L.exact L.rename s
  constructor <;> rw [hm s]
  · exact .refl s
  · exact hs
  · exact ⟨_, h s₀ hs₀⟩
  · intro w s' hbeside hfits
    rw [hm' s']
    exact ⟨hbeside, h s' (L.mirrors hbeside hfits)⟩

end TypeResolution.Replay
