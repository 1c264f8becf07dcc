import TypeResolution.Proofs.Replay.Basic
import TypeResolution.Proofs.Store.Represents

/-!
A run in a store that holds more. The types of the first store are in the second one under other
ids, between types that the first run knows nothing of. Both runs make the same types, unless the
second store holds a type already that the first run makes, or numbers the types in another order.
-/

namespace TypeResolution

open Store

/-- The types before `n` are renamed as they were; those from `n` on follow `n'`. -/
def Renaming.later (f : Renaming) (n n' : Nat) (hn : TypeId.fixedCount ≤ n)
    (hf : ∀ t : TypeId, t.index < n → (f t).index < n') : Renaming where
  toFun t := if t.index < n then f t else ⟨t.index - n + n'⟩
  lt {a b} hab := by
    by_cases hb : b.index < n
    · rw [if_pos hb, if_pos (Nat.lt_trans hab hb)]
      exact f.lt hab
    · by_cases ha : a.index < n
      · have hlt := hf a ha
        rw [if_pos ha, if_neg hb]
        change (f a).index < b.index - n + n'
        omega
      · rw [if_neg ha, if_neg hb]
        change a.index - n + n' < b.index - n + n'
        omega
  fixed {a} ha := by
    have hlt : a.index < TypeId.fixedCount := by simpa [TypeId.isFixed] using ha
    rw [if_pos (Nat.lt_of_lt_of_le hlt hn)]
    exact f.fixed ha

theorem Node.shape_mapIds (n : Node) (f : TypeId → TypeId) :
    (n.mapIds f).shape = n.shape.map f := by
  cases n with
  | object o => simp [mapIds, shape, ObjectShape.mapIds, Shape.map, Field.mapIds, Field.entry, Entry.map]
  | template spans =>
      simp only [mapIds, shape, Shape.map, List.map_map]
      refine congrArg Shape.template (List.map_congr_left fun x _ => ?_)
      cases x <;> rfl
  | _ => rfl

namespace Store

variable {f : Renaming} {s s' s₁ s₁' : Store} {t u : TypeId}

/-- `t'` is `t` with other ids. Components are replaced by types that are them; their order stays,
but for the order of fields. -/
inductive Copy (s s' : Store) : TypeId → TypeId → Prop
  | intro {t t' : TypeId} (f : TypeId → TypeId) (known : t.index < s.size)
      (known' : t'.index < s'.size)
      (node : (s'.node t').identity = ((s.node t).mapIds f).identity)
      (components : ∀ c ∈ (s.node t).components, Copy s s' c (f c)) : Copy s s' t t'

/-- The next store makes no type of `a` that was not there, and records no source tag for one. -/
def Spares (a s s' : Store) : Prop :=
  ∀ t u, a.Copy s' t u → u.index < s.size ∧ ∀ p : Place, p.owner = u → s'.origin? p = s.origin? p

theorem Copy.known (h : s.Copy s' t u) : t.index < s.size := by
  cases h
  assumption

theorem Copy.known' (h : s.Copy s' t u) : u.index < s'.size := by
  cases h
  assumption

theorem Copy.mono (h : s.Extends s₁) (h' : s'.Extends s₁') (ht : s.Copy s' t u) :
    s₁.Copy s₁' t u := by
  induction ht with
  | intro f known known' node _ ih =>
      refine .intro f (Nat.lt_of_lt_of_le known h.size_le) (Nat.lt_of_lt_of_le known' h'.size_le)
        ?_ ?_
      · rw [h.node_eq _ known, h'.node_eq _ known', node]
      · rw [h.node_eq _ known]
        exact ih

/-- What is a copy of a type later is one before, if it was there. -/
theorem Copy.back (hs' : s'.Formed) (h' : s'.Extends s₁') (ht : s.Copy s₁' t u)
    (hu : u.index < s'.size) : s.Copy s' t u := by
  induction ht with
  | @intro t u f known _ node _ ih =>
      rw [h'.node_eq u hu] at node
      refine .intro f known hu node fun c hc => ih c hc ?_
      have hmem : f c ∈ (s'.node u).components := by
        rw [Node.mem_components_of_identity_eq node, Node.components_mapIds]
        exact List.mem_map_of_mem hc
      exact Nat.lt_trans (hs'.descends u hu _ hmem) hu

/-- Source tags are recorded for types of the store only. -/
def Placed (s : Store) : Prop := ∀ p tag, s.origin? p = some tag → p.owner.index < s.size

theorem origin?_fresh {numbers : Numbering} (p : Place) : (fresh numbers).origin? p = none := by
  have hnone : ∀ (ns : List Node) (s : Store), (ns.foldl push s).origins = s.origins := by
    intro ns
    induction ns with
    | nil => exact fun _ => rfl
    | cons n rest ih => exact fun s => (ih (s.push n)).trans rfl
  rw [Store.origin?, fresh, hnone]
  simp

theorem placed_fresh {numbers : Numbering} : (fresh numbers).Placed := by
  intro p tag h
  rw [origin?_fresh] at h
  cases h

theorem origin?_recordOrigin {p q : Place} {tag : SourceTag} : (s.recordOrigin p tag).origin? q =
    if p = q ∧ s.origin? p = none then some tag else s.origin? q := by
  have hnone : p ∉ s.origins ↔ s.origins[p]? = none := by
    rw [Std.HashMap.mem_iff_isSome_getElem?, Option.not_isSome_iff_eq_none]
  refine Std.HashMap.getElem?_insertIfNew.trans (if_congr ?_ rfl rfl)
  rw [beq_iff_eq, hnone]
  rfl

theorem Placed.recordOrigin (hs : s.Placed) {p : Place} (hp : p.owner.index < s.size)
    {tag : SourceTag} : (s.recordOrigin p tag).Placed := by
  intro q tag' h
  rw [origin?_recordOrigin] at h
  split at h
  · rename_i heq
    exact heq.1 ▸ hp
  · exact hs q tag' h

theorem Placed.origin?_eq_none (hs : s.Placed) {p : Place} (hp : s.size ≤ p.owner.index) :
    s.origin? p = none := by
  cases h : s.origin? p with
  | none => rfl
  | some tag => exact absurd (hs p tag h) (Nat.not_lt_of_le hp)

theorem Mirrors.congr {exact : Prop} {g : Renaming} (h : s.Mirrors exact f s') (hs : s.Formed)
    (hfg : ∀ t : TypeId, t.index < s.size → f t = g t) : s.Mirrors exact g s' where
  node_eq t ht := by
    rw [← hfg t ht, h.node_eq t ht]
    exact Node.mapIds_congr fun c hc => hfg c (Nat.lt_trans (hs.descends t ht c hc) ht)
  origin_eq hexact p hp := by
    have howner := hfg p.owner hp
    have hplace : p.mapIds g = p.mapIds f := by
      cases p with
      | type t => exact congrArg Place.type howner.symm
      | field t name => exact congrArg (Place.field · name) howner.symm
    rw [hplace, h.origin_eq hexact p hp]
  order t u ht hu := by
    have horder := h.order t u ht hu
    rwa [TypeId.SameOrder, hfg t ht, hfg u hu] at horder

/-- The types of `s` are in `s'`, with their source tags, under the ids that `f` gives them. -/
structure Lodges (f : Renaming) (s s' : Store) : Prop where
  formed : s.Formed
  formed' : s'.Formed
  placed : s.Placed
  placed' : s'.Placed
  known : ∀ t : TypeId, t.index < s.size → (f t).index < s'.size
  mirrors : s.Mirrors True f s'

theorem Lodges.refl (hs : s.Formed) (hplaced : s.Placed) : Lodges .same s s where
  formed := hs
  formed' := hs
  placed := hplaced
  placed' := hplaced
  known _ ht := ht
  mirrors := ⟨fun t _ => (s.node t).mapIds_same.symm, fun _ p _ => by rw [p.mapIds_same],
    fun _ _ _ _ => .rfl⟩

theorem Lodges.copy (h : Lodges f s s') (ht : s.Closed AnyName t) : s.Copy s' t (f t) := by
  induction ht with
  | intro known _ _ ih =>
      exact .intro f known (h.known _ known) (by rw [h.mirrors.node_eq _ known]) ih

/-- Under their other ids the types are described as they were. -/
theorem Lodges.describe_eq (h : Lodges f s s') (ht : s.Closed AnyName t) :
    s'.describe (f t) = s.describe t := by
  induction ht with
  | intro known _ _ ih =>
      rw [Store.describe_eq h.formed known, Store.describe_eq h.formed' (h.known _ known),
        h.mirrors.node_eq _ known, Node.shape_mapIds, Shape.map_map]
      refine congrArg Description.of (Shape.map_congr fun c hc => ih c ?_)
      rwa [Node.parts_shape] at hc

end Store

namespace Store.Lodges

variable {f : Renaming} {s s' s₁ s₁' s₂ : Store} {t u : TypeId} (h : s.Lodges f s')

/-- The types that the first store makes next follow all that are in the second one. -/
def next (h : s.Lodges f s') : Renaming :=
  f.later s.size s'.size h.formed.fixedCount_le h.known

theorem next_of_lt (ht : t.index < s.size) : h.next t = f t := if_pos ht

theorem next_of_le (ht : s.size ≤ t.index) : h.next t = ⟨t.index - s.size + s'.size⟩ :=
  if_neg (Nat.not_lt_of_le ht)

/-- Both stores have made the same types since. -/
structure Beside (s₁ s₁' : Store) : Prop where
  lodges : s₁.Lodges h.next s₁'
  extends_left : s.Extends s₁
  extends_right : s'.Extends s₁'
  size_eq : s₁'.size + s.size = s₁.size + s'.size

/-- No type of the first store is one of the second one that was there before, and where the second
one makes them its numbers are in the same order. -/
structure Fits (s₁ : Store) : Prop where
  apart : ∀ t u : TypeId, t.index < s₁.size → u.index < s'.size →
    (s'.node u).identity = ((s₁.node t).mapIds h.next).identity →
    ∃ t₀ : TypeId, t₀.index < s.size ∧ f t₀ = u
  order : ∀ t u : TypeId, t.index < s₁.size → u.index < s₁.size →
    TypeId.SameOrder h.next s.numbers s'.numbers t u

theorem beside_start : h.Beside s s' where
  lodges := { h with
    known := fun t ht => by rw [h.next_of_lt ht]; exact h.known t ht
    mirrors := h.mirrors.congr h.formed fun t ht => (h.next_of_lt ht).symm }
  extends_left := .refl s
  extends_right := .refl s'
  size_eq := Nat.add_comm _ _

variable {h} {n : Node}

/-- A type of the second store was there before, or the first one has it too. -/
theorem Beside.lt_or_eq (hb : h.Beside s₁ s₁') (hu : u.index < s₁'.size) :
    u.index < s'.size ∨ ∃ t : TypeId, t.index < s₁.size ∧ h.next t = u := by
  rcases Nat.lt_or_ge u.index s'.size with hlt | hle
  · exact .inl hlt
  · have hsize := hb.size_eq
    have hgrown := hb.extends_left.size_le
    refine .inr ⟨⟨u.index - s'.size + s.size⟩, by simp only; omega, ?_⟩
    rw [h.next_of_le (Nat.le_add_left _ _)]
    exact congrArg TypeId.mk (show u.index - s'.size + s.size - s.size + s'.size = u.index by omega)

theorem Beside.push (hb : h.Beside s₁ s₁') (hn : ∀ c ∈ n.components, c.index < s₁.size)
    (hfits : h.Fits (s₁.push n)) (hnew : s₁.ids[n.identity]? = none)
    (hnew' : s₁'.ids[(n.mapIds h.next).identity]? = none) :
    h.Beside (s₁.push n) (s₁'.push (n.mapIds h.next)) ∧ h.next ⟨s₁.size⟩ = ⟨s₁'.size⟩ := by
  have hsize := hb.size_eq
  have hgrown := hb.extends_left.size_le
  have hid : h.next ⟨s₁.size⟩ = ⟨s₁'.size⟩ := by
    rw [h.next_of_le (t := ⟨s₁.size⟩) hgrown]
    exact congrArg TypeId.mk (show s₁.size - s.size + s'.size = s₁'.size by omega)
  have hn' : ∀ c ∈ (n.mapIds h.next).components, c.index < s₁'.size := by
    rw [Node.components_mapIds]
    exact List.forall_mem_map.mpr fun c hc => hb.lodges.known c (hn c hc)
  refine ⟨⟨⟨hb.lodges.formed.push hn hnew, hb.lodges.formed'.push hn' hnew', ?_, ?_, ?_, ?_, ?_, ?_⟩,
    hb.extends_left.trans (extends_push hnew), hb.extends_right.trans (extends_push hnew'), ?_⟩, hid⟩
  · intro p tag hp
    exact Nat.lt_of_lt_of_le (hb.lodges.placed p tag hp) (extends_push hnew).size_le
  · intro p tag hp
    exact Nat.lt_of_lt_of_le (hb.lodges.placed' p tag hp) (extends_push hnew').size_le
  · intro t ht
    rcases lt_or_eq_of_lt_push ht with hlt | rfl
    · exact Nat.lt_of_lt_of_le (hb.lodges.known t hlt) (extends_push hnew').size_le
    · rw [hid, size_push]
      exact Nat.lt_succ_self _
  · intro t ht
    rcases lt_or_eq_of_lt_push ht with hlt | rfl
    · rw [node_push_of_lt (hb.lodges.known t hlt), node_push_of_lt hlt]
      exact hb.lodges.mirrors.node_eq t hlt
    · rw [hid, node_push_new, node_push_new]
  · intro _ p hp
    change s₁'.origin? _ = s₁.origin? p
    rcases lt_or_eq_of_lt_push hp with hlt | heq
    · exact hb.lodges.mirrors.origin_eq trivial p hlt
    · -- no tag was recorded for a type before it was made
      rw [hb.lodges.placed.origin?_eq_none (by rw [heq]),
        hb.lodges.placed'.origin?_eq_none (by rw [Place.owner_mapIds, heq, hid])]
  · intro t u ht hu
    rw [numbers_push, numbers_push, hb.extends_left.numbers_eq, hb.extends_right.numbers_eq]
    exact hfits.order t u ht hu
  · simp only [size_push]
    omega

theorem Beside.intern (hb : h.Beside s₁ s₁') (hn : ∀ c ∈ n.components, c.index < s₁.size)
    (hfits : h.Fits (s₁.intern n).2) :
    h.Beside (s₁.intern n).2 (s₁'.intern (n.mapIds h.next)).2 ∧
      (s₁'.intern (n.mapIds h.next)).1 = h.next (s₁.intern n).1 := by
  cases hid : s₁.ids[n.identity]? with
  | some t =>
      obtain ⟨ht, hnode⟩ := hb.lodges.formed.sound _ _ hid
      have hidentity : (s₁'.node (h.next t)).identity = (n.mapIds h.next).identity := by
        rw [hb.lodges.mirrors.node_eq t ht, Node.identity_mapIds, hnode, Node.identity_mapIds]
      have hid' := hb.lodges.formed'.complete _ (hb.lodges.known t ht)
      rw [hidentity] at hid'
      rw [intern_of_ids hid, intern_of_ids hid']
      exact ⟨hb, rfl⟩
  | none =>
      have hpush : s₁.intern n = (⟨s₁.size⟩, s₁.push n) := by
        simp only [Store.intern, hid]
        rfl
      rw [hpush] at hfits ⊢
      have hid' : s₁'.ids[(n.mapIds h.next).identity]? = none := by
        cases hid' : s₁'.ids[(n.mapIds h.next).identity]? with
        | none => rfl
        | some u =>
            obtain ⟨hu, hnode'⟩ := hb.lodges.formed'.sound _ _ hid'
            -- a type that is there shows one of the first store, by what fits
            obtain ⟨t, ht, rfl⟩ : ∃ t : TypeId, t.index < s₁.size ∧ h.next t = u := by
              rcases hb.lt_or_eq hu with hlt | hshown
              · have hsame : (s'.node u).identity =
                    (((s₁.push n).node ⟨s₁.size⟩).mapIds h.next).identity := by
                  rw [node_push_new, ← hnode', hb.extends_right.node_eq u hlt]
                obtain ⟨t, ht, rfl⟩ := hfits.apart ⟨s₁.size⟩ u (by simp) hlt hsame
                exact ⟨t, Nat.lt_of_lt_of_le ht hb.extends_left.size_le, h.next_of_lt ht⟩
              · exact hshown
            rw [hb.lodges.mirrors.node_eq t ht, Node.identity_mapIds, Node.identity_mapIds] at hnode'
            have hnode := Node.mapIds_injective h.next.injective hnode'
            rw [← hnode, hb.lodges.formed.complete t ht] at hid
            cases hid
      have hpush' : s₁'.intern (n.mapIds h.next) = (⟨s₁'.size⟩, s₁'.push (n.mapIds h.next)) := by
        simp only [Store.intern, hid']
        rfl
      rw [hpush']
      obtain ⟨hbeside, hnext⟩ := hb.push hn hfits hid hid'
      exact ⟨hbeside, hnext.symm⟩

theorem Beside.record (hb : h.Beside s₁ s₁') {p : Place} (hp : p.owner.index < s₁.size)
    (tag : SourceTag) :
    h.Beside (s₁.recordOrigin p tag) (s₁'.recordOrigin (p.mapIds h.next) tag) := by
  have hp' : (p.mapIds h.next).owner.index < s₁'.size := by
    rw [Place.owner_mapIds]
    exact hb.lodges.known _ hp
  have halike := alike_recordOrigin s₁ p tag
  have halike' := alike_recordOrigin s₁' (p.mapIds h.next) tag
  refine ⟨⟨halike.formed hb.lodges.formed, halike'.formed hb.lodges.formed',
    hb.lodges.placed.recordOrigin hp, hb.lodges.placed'.recordOrigin hp', hb.lodges.known,
    hb.lodges.mirrors.node_eq, fun _ q hq => ?_, hb.lodges.mirrors.order⟩, hb.extends_left.trans halike.toExtends,
    hb.extends_right.trans halike'.toExtends, hb.size_eq⟩
  have hplace : p.mapIds h.next = q.mapIds h.next ↔ p = q :=
    (Place.mapIds_injective h.next.injective).eq_iff
  simp only [origin?_recordOrigin, hplace, hb.lodges.mirrors.origin_eq trivial p hp,
    hb.lodges.mirrors.origin_eq trivial q hq]

theorem Fits.back (hext : s₁.Extends s₂) (hfits : h.Fits s₂) : h.Fits s₁ where
  apart t u ht hu hnode := by
    refine hfits.apart t u (Nat.lt_of_lt_of_le ht hext.size_le) hu ?_
    rw [hext.node_eq t ht]
    exact hnode
  order t u ht hu := hfits.order t u (Nat.lt_of_lt_of_le ht hext.size_le)
    (Nat.lt_of_lt_of_le hu hext.size_le)

/-- The first run goes on in its store, and the second one in the store that holds more. -/
@[reducible] def link (h : s.Lodges f s') : Replay.Link where
  names := AnyName
  calm := True
  exact := True
  rename := h.next
  World := Unit
  beside _ := h.Beside
  fits _ := h.Fits
  fits_back := Fits.back
  mirrors hb _ := hb.lodges.mirrors
  intern _ hn hb hfits := hb.intern hn hfits
  record _ hb hp := hb.record hp _
  quiet hexact := absurd trivial hexact

/-- Of the types of `a`, those that are in the second store are in the first one. -/
def Only (a : Store) (_ : s.Lodges f s') : Prop :=
  ∀ t u, a.Copy s' t u → ∃ t₀ : TypeId, t₀.index < s.size ∧ f t₀ = u

/-- What the first run ends with fits if all of it is of `a`. -/
theorem Only.fits {a : Store} (honly : h.Only a) (hext : s.Extends s₁) (ha : s₁.Extends a)
    (horder : ∀ t u : TypeId, t.index < s₁.size → u.index < s₁.size →
      TypeId.SameOrder h.next s.numbers s'.numbers t u) : h.Fits s₁ := by
  refine ⟨fun t u ht hu hnode => ?_, horder⟩
  refine honly t u (.intro h.next (Nat.lt_of_lt_of_le ht ha.size_le) hu ?_ fun c hc => ?_)
  · rw [ha.node_eq t ht]
    exact hnode
  · -- the components of `u` were there, and so were those of `t`
    rw [ha.node_eq t ht] at hc
    have hmem : h.next c ∈ (s'.node u).components := by
      rw [Node.mem_components_of_identity_eq hnode, Node.components_mapIds]
      exact List.mem_map_of_mem hc
    have hlt' := Nat.lt_trans (h.formed'.descends u hu _ hmem) hu
    have hlt : c.index < s.size := by
      by_contra hle
      rw [h.next_of_le (Nat.le_of_not_lt hle)] at hlt'
      exact absurd hlt' (Nat.not_lt_of_le (Nat.le_add_left _ _))
    rw [h.next_of_lt hlt]
    exact (h.copy (h.formed.closed_of_known hlt)).mono (hext.trans ha) (.refl s')

section run

variable {a : Store} {α : Type} [Replay.Paired h.link α] {m m' : Build α}

/-- A run whose types are of `a` is followed in the store that holds more. -/
theorem follow (hm : Replay.Build.Follows (L := h.link) s m m') (hfits : h.Fits (m s).2) :
    h.Beside (m s).2 (m' s').2 ∧ Replay.Same h.link (m s).2 (m s).1 (m' s').1 :=
  hm.along () s' h.beside_start hfits

theorem Beside.only (hb : h.Beside s₁ s₁') (honly : h.Only a) : hb.lodges.Only a := by
  intro t u hcopy
  rcases hb.lt_or_eq hcopy.known' with hlt | hshown
  · obtain ⟨t₀, ht₀, rfl⟩ := honly t u (hcopy.back h.formed' hb.extends_right hlt)
    exact ⟨t₀, Nat.lt_of_lt_of_le ht₀ hb.extends_left.size_le, h.next_of_lt ht₀⟩
  · exact hshown

end run

/-- What spares the types of `a` leaves the types of the first store where they are. -/
theorem spared {a : Store} (h : s.Lodges f s') (ha : s.Extends a) (hs₁' : s₁'.Formed)
    (hplaced : s₁'.Placed) (hext : s'.Extends s₁') (hspares : a.Spares s' s₁') :
    s.Lodges f s₁' where
  formed := h.formed
  formed' := hs₁'
  placed := h.placed
  placed' := hplaced
  known t ht := Nat.lt_of_lt_of_le (h.known t ht) hext.size_le
  mirrors := by
    refine ⟨fun t ht => ?_, fun hexact p hp => ?_, fun t u ht hu => ?_⟩
    · rw [hext.node_eq _ (h.known t ht)]
      exact h.mirrors.node_eq t ht
    · have hcopy := (h.copy (h.formed.closed_of_known hp)).mono ha hext
      rw [(hspares _ _ hcopy).2 _ (Place.owner_mapIds f p)]
      exact h.mirrors.origin_eq hexact p hp
    · rw [hext.numbers_eq]
      exact h.mirrors.order t u ht hu

theorem Only.spared {a : Store} (honly : h.Only a) (h₁ : s.Lodges f s₁') (hext : s'.Extends s₁')
    (hspares : a.Spares s' s₁') : h₁.Only a := by
  intro t u hcopy
  exact honly t u (hcopy.back h.formed' hext (hspares t u hcopy).1)

/-- In a store that holds nothing else everything fits. -/
theorem fits_refl (hs : s.Formed) (hplaced : s.Placed) (s₁ : Store) :
    (refl hs hplaced).Fits s₁ := by
  have hnext : ∀ t, (refl hs hplaced).next t = t := by
    intro t
    rcases Nat.lt_or_ge t.index s.size with ht | ht
    · exact (refl hs hplaced).next_of_lt ht
    · rw [(refl hs hplaced).next_of_le ht, Nat.sub_add_cancel ht]
  refine ⟨fun _ u _ hu _ => ⟨u, hu, rfl⟩, fun t u _ _ => ?_⟩
  rw [TypeId.SameOrder, hnext, hnext]

end Store.Lodges

end TypeResolution
