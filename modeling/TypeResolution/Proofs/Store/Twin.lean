import Mathlib.Data.List.Sort
import TypeResolution.Environment
import TypeResolution.Proofs.Store.Formed

/-!
Types of two stores. Each store makes its types in an order of its own and numbers them in its own
way, so one type can have two ids in two stores. Twins are the same type with other ids: their nodes
agree once every component is replaced by its twin, up to the order of fields, which is no part of a
type, and of members, which is the order of their numbers.
-/

namespace TypeResolution

namespace TypeId

variable {numbers : Numbering} {l l' ts us : List TypeId}

/-- Lists in order with the same members are equal. -/
theorem eq_of_sorted (hl : l.Pairwise (Before numbers)) (hl' : l'.Pairwise (Before numbers))
    (h : ∀ t, t ∈ l ↔ t ∈ l') : l = l' := by
  refine List.Perm.eq_of_pairwise (fun a b _ _ hab hba => ?_) hl hl'
    ((List.perm_ext_iff_of_nodup (hl.imp Before.ne) (hl'.imp Before.ne)).mpr h)
  exact absurd hba hab.asymm

theorem sortUnique_congr (h : ∀ t, t ∈ ts ↔ t ∈ us) :
    sortUnique numbers ts = sortUnique numbers us := by
  refine eq_of_sorted (sorted_sortUnique ts) (sorted_sortUnique us) fun t => ?_
  rw [mem_sortUnique, mem_sortUnique, h]

theorem sortUnique_of_sorted (h : ts.Pairwise (Before numbers)) : sortUnique numbers ts = ts :=
  eq_of_sorted (sorted_sortUnique ts) h fun _ => mem_sortUnique

end TypeId

/-- What names types: the ids in it, and the same with other ids. -/
class Naming (α : Type) where
  ids : α → List TypeId
  rename : (TypeId → TypeId) → α → α
  rename_congr {f g : TypeId → TypeId} {a : α} : (∀ t ∈ ids a, f t = g t) → rename f a = rename g a
  rename_back {f g : TypeId → TypeId} {a : α} : (∀ t ∈ ids a, g (f t) = t) → rename g (rename f a) = a

export Naming (ids rename rename_congr rename_back)

namespace Naming

variable {α β : Type}

@[reducible] def plain : Naming α := ⟨fun _ => [], fun _ a => a, fun _ => rfl, fun _ => rfl⟩

instance : Naming Unit := plain

instance : Naming Nat := plain

instance : Naming Bool := plain

instance : Naming TypeId :=
  ⟨fun t => [t], fun f t => f t, fun h => h _ (by simp), fun h => h _ (by simp)⟩

instance [Naming α] : Naming (List α) where
  ids l := l.flatMap ids
  rename f l := l.map (rename f)
  rename_congr h := List.map_congr_left fun a ha => rename_congr fun t ht =>
    h t (List.mem_flatMap.mpr ⟨a, ha, ht⟩)
  rename_back {f g l} h := by
    rw [List.map_map]
    refine (List.map_congr_left fun a ha => ?_).trans (List.map_id l)
    exact rename_back fun t ht => h t (List.mem_flatMap.mpr ⟨a, ha, ht⟩)

instance [Naming α] : Naming (Option α) where
  ids o := o.toList.flatMap ids
  rename f o := o.map (rename f)
  rename_congr {f g o} h := by
    cases o with
    | none => rfl
    | some a => exact congrArg some (rename_congr fun t ht => h t (by simpa using ht))
  rename_back {f g o} h := by
    cases o with
    | none => rfl
    | some a => exact congrArg some (rename_back fun t ht => h t (by simpa using ht))

instance [Naming α] [Naming β] : Naming (α × β) where
  ids x := ids x.1 ++ ids x.2
  rename f x := (rename f x.1, rename f x.2)
  rename_congr h := Prod.ext (rename_congr fun t ht => h t (List.mem_append_left _ ht))
    (rename_congr fun t ht => h t (List.mem_append_right _ ht))
  rename_back h := Prod.ext (rename_back fun t ht => h t (List.mem_append_left _ ht))
    (rename_back fun t ht => h t (List.mem_append_right _ ht))

instance : Naming Field where
  ids x := [x.type]
  rename f x := { x with type := f x.type }
  rename_congr {f g x} h := by rw [h x.type (by simp)]
  rename_back {f g x} h := by simp only [h x.type (by simp)]

instance : Naming Span where
  ids
    | .text _ => []
    | .hole t => [t]
  rename f
    | .text a => .text a
    | .hole t => .hole (f t)
  rename_congr {f g x} h := by
    cases x with
    | text => rfl
    | hole t => exact congrArg Span.hole (h t (by simp))
  rename_back {f g x} h := by
    cases x with
    | text => rfl
    | hole t => exact congrArg Span.hole (h t (by simp))

instance : Naming TypeParam where
  ids p := ids p.constraint ++ ids p.default
  rename f p := { p with constraint := rename f p.constraint, default := rename f p.default }
  rename_congr {f g p} h := by
    rw [rename_congr (a := p.constraint) fun t ht => h t (List.mem_append_left _ ht),
      rename_congr (a := p.default) fun t ht => h t (List.mem_append_right _ ht)]
  rename_back {f g p} h := by
    simp only [rename_back (a := p.constraint) fun t ht => h t (List.mem_append_left _ ht),
      rename_back (a := p.default) fun t ht => h t (List.mem_append_right _ ht)]

instance : Naming Alias where
  ids a := ids a.params ++ [a.body]
  rename f a := { a with params := rename f a.params, body := f a.body }
  rename_congr {f g a} h := by
    rw [rename_congr (a := a.params) fun t ht => h t (List.mem_append_left _ ht), h a.body (by simp)]
  rename_back {f g a} h := by
    simp only [rename_back (a := a.params) fun t ht => h t (List.mem_append_left _ ht),
      h a.body (by simp)]

instance : Naming Environment where
  ids e := ids e.aliases
  rename f e := ⟨rename f e.aliases⟩
  rename_congr h := congrArg Environment.mk (rename_congr h)
  rename_back h := congrArg Environment.mk (rename_back h)

end Naming

namespace Node

/-- The node with other ids. Its members are put in the order of their numbers. -/
def rename (numbers : Numbering) (f : TypeId → TypeId) : Node → Node
  | .object shape => .object ⟨Naming.rename f shape.fields, Naming.rename f shape.stringIndex⟩
  | .union members => .union (TypeId.sortUnique numbers (members.map f))
  | .intersection members => .intersection (TypeId.sortUnique numbers (members.map f))
  | .param info => .param (Naming.rename f info)
  | .conditional c => .conditional
      ⟨f c.check, f c.pattern, c.infer, f c.whenTrue, f c.whenFalse, c.distributive⟩
  | .mapped m => .mapped ⟨m.keyParam, f m.source, Naming.rename f m.keyFilter, f m.template,
      Naming.rename f m.nameType, m.optional, m.readonly⟩
  | .function shape => .function ⟨shape.params.map f, f shape.result⟩
  | .array element => .array (f element)
  | .reference name args => .reference name (args.map f)
  | .indexAccess obj key => .indexAccess (f obj) (f key)
  | .template spans => .template (Naming.rename f spans)
  | .stringMap kind arg => .stringMap kind (f arg)
  | n => n

/-- Members stand in the order of their numbers, each once. -/
def Ordered (numbers : Numbering) : Node → Prop
  | .union members | .intersection members => members.Pairwise (TypeId.Before numbers)
  | _ => True

variable {numbers numbers' : Numbering} {f g : TypeId → TypeId} {n n' : Node}

theorem ids_template (spans : List Span) : (template spans).components = Naming.ids spans := by
  simp only [components, Naming.ids]
  induction spans with
  | nil => rfl
  | cons x rest ih => cases x <;> simp [ih]

theorem rename_congr (h : ∀ c ∈ n.components, f c = g c) :
    n.rename numbers f = n.rename numbers g := by
  cases n with
  | error | intrinsic | literal => rfl
  | object shape =>
      have hfields : ∀ t ∈ Naming.ids shape.fields, f t = g t := fun t ht =>
        h t (List.mem_append_left _ (by simpa [Naming.ids, eq_comm] using ht))
      have hindex : ∀ t ∈ Naming.ids shape.stringIndex, f t = g t := fun t ht =>
        h t (List.mem_append_right _ (by simpa [Naming.ids] using ht))
      simp only [rename, Naming.rename_congr hfields, Naming.rename_congr hindex]
  | union members | intersection members =>
      simp only [rename, List.map_congr_left (f := f) (g := g) (l := members) h]
  | param info => 
      have hinfo : ∀ t ∈ Naming.ids info, f t = g t := fun t ht => h t (by
        simpa [Naming.ids, components] using ht)
      simp only [rename, Naming.rename_congr hinfo]
  | conditional c =>
      simp only [components, List.forall_mem_cons] at h
      simp only [rename, h]
  | mapped m =>
      have hfilter : ∀ t ∈ Naming.ids m.keyFilter, f t = g t := fun t ht =>
        h t (by simp [components, Naming.ids] at ht ⊢; simp [ht])
      have hname : ∀ t ∈ Naming.ids m.nameType, f t = g t := fun t ht =>
        h t (by simp [components, Naming.ids] at ht ⊢; simp [ht])
      simp only [rename, Naming.rename_congr hfilter, Naming.rename_congr hname,
        h m.source (by simp [components]), h m.template (by simp [components])]
  | function shape =>
      have hparams : shape.params.map f = shape.params.map g :=
        List.map_congr_left fun t ht => h t (List.mem_append_left _ ht)
      simp only [rename, hparams, h shape.result (by simp [components])]
  | array element => simp only [rename, h element (by simp [components])]
  | reference name args => simp only [rename, List.map_congr_left (f := f) (g := g) (l := args) h]
  | indexAccess obj key =>
      simp only [components, List.forall_mem_cons] at h
      simp only [rename, h]
  | template spans =>
      rw [ids_template] at h
      simp only [rename, Naming.rename_congr h]
  | stringMap kind arg => simp only [rename, h arg (by simp [components])]

theorem identity_rename : (n.rename numbers f).identity = n.identity.rename numbers f := by
  cases n with
  | object shape =>
      have hsorted := List.map_mergeSort (f := Naming.rename f) (l := shape.fields)
        (r := fun a b => decide (a.name ≤ b.name)) (s := fun a b => decide (a.name ≤ b.name))
        fun a _ b _ => rfl
      exact congrArg (fun fields => object ⟨fields, Naming.rename f shape.stringIndex⟩) hsorted.symm
  | _ => rfl

theorem mem_components_rename {c : TypeId} :
    c ∈ (n.rename numbers f).components ↔ ∃ d ∈ n.components, f d = c := by
  cases n with
  | error | intrinsic | literal => simp [rename, components]
  | object shape =>
      simp only [rename, components, Naming.rename, List.map_map, List.mem_append, or_and_right, exists_or]
      simp
  | union members | intersection members =>
      simp only [rename, components, TypeId.mem_sortUnique, List.mem_map]
  | param info => simp [rename, components, Naming.rename, or_and_right, exists_or]
  | conditional c => simp [rename, components, eq_comm]
  | mapped m => simp [rename, components, Naming.rename, or_and_right, exists_or, eq_comm]
  | function shape => simp [rename, components, or_and_right, exists_or, eq_comm]
  | array element => simp [rename, components, eq_comm]
  | reference name args => simp [rename, components]
  | indexAccess obj key => simp [rename, components, eq_comm]
  | template spans =>
      simp only [rename, components, Naming.rename, List.mem_filterMap, List.mem_map]
      constructor
      · rintro ⟨_, ⟨x, hx, rfl⟩, h⟩
        cases x with
        | text => cases h
        | hole t => exact ⟨t, ⟨.hole t, hx, rfl⟩, Option.some.inj h⟩
      · rintro ⟨d, ⟨x, hx, h⟩, rfl⟩
        cases x with
        | text => cases h
        | hole t =>
            cases h
            exact ⟨_, ⟨_, hx, rfl⟩, rfl⟩
  | stringMap kind arg => simp [rename, components, eq_comm]

theorem rename_back (hn : n.Ordered numbers) (h : ∀ c ∈ n.components, g (f c) = c) :
    (n.rename numbers' f).rename numbers g = n := by
  have hmembers {members : List TypeId} (hsorted : members.Pairwise (TypeId.Before numbers))
      (h : ∀ c ∈ members, g (f c) = c) :
      TypeId.sortUnique numbers ((TypeId.sortUnique numbers' (members.map f)).map g) = members := by
    refine TypeId.eq_of_sorted (TypeId.sorted_sortUnique _) hsorted fun t => ?_
    simp only [TypeId.mem_sortUnique, List.mem_map]
    constructor
    · rintro ⟨_, ⟨c, hc, rfl⟩, rfl⟩
      rw [h c hc]
      exact hc
    · exact fun ht => ⟨_, ⟨t, ht, rfl⟩, h t ht⟩
  have hmap {l : List TypeId} (h : ∀ c ∈ l, g (f c) = c) : (l.map f).map g = l := by
    rw [List.map_map]
    exact (List.map_congr_left h).trans (List.map_id l)
  cases n with
  | error | intrinsic | literal => rfl
  | object shape =>
      have hfields := Naming.rename_back (f := f) (g := g) (a := shape.fields) fun t ht =>
        h t (List.mem_append_left _ (by simpa [Naming.ids, eq_comm] using ht))
      have hindex := Naming.rename_back (f := f) (g := g) (a := shape.stringIndex) fun t ht =>
        h t (List.mem_append_right _ (by simpa [Naming.ids] using ht))
      simp only [rename, hfields, hindex]
  | union members => exact congrArg union (hmembers hn h)
  | intersection members => exact congrArg intersection (hmembers hn h)
  | param info =>
      exact congrArg param (Naming.rename_back fun t ht => h t (by
        simpa [Naming.ids, components] using ht))
  | conditional c =>
      simp only [components, List.forall_mem_cons] at h
      simp only [rename, h]
  | mapped m =>
      have hfilter := Naming.rename_back (f := f) (g := g) (a := m.keyFilter) fun t ht =>
        h t (by simp [components, Naming.ids] at ht ⊢; simp [ht])
      have hname := Naming.rename_back (f := f) (g := g) (a := m.nameType) fun t ht =>
        h t (by simp [components, Naming.ids] at ht ⊢; simp [ht])
      simp only [rename, hfilter, hname, h m.source (by simp [components]),
        h m.template (by simp [components])]
  | function shape =>
      have hparams := hmap fun t ht => h t (List.mem_append_left _ ht)
      simp only [rename, hparams, h shape.result (by simp [components])]
  | array element => simp only [rename, h element (by simp [components])]
  | reference name args => exact congrArg (reference name) (hmap h)
  | indexAccess obj key =>
      simp only [components, List.forall_mem_cons] at h
      simp only [rename, h]
  | template spans =>
      rw [ids_template] at h
      simp only [rename, Naming.rename_back h]
  | stringMap kind arg => simp only [rename, h arg (by simp [components])]

end Node

namespace Store

/-- `t'` is `t` once the components of `t` are replaced by types that are them. -/
inductive Matches (s s' : Store) : TypeId → TypeId → Prop
  | intro {t t' : TypeId} (f : TypeId → TypeId) (known : t.index < s.size)
      (known' : t'.index < s'.size)
      (node : (s'.node t').identity = ((s.node t).rename s'.numbers f).identity)
      (components : ∀ c ∈ (s.node t).components, Matches s s' c (f c)) : Matches s s' t t'

/-- Each is the other with other ids. -/
structure Twins (s s' : Store) (t t' : TypeId) : Prop where
  there : s.Matches s' t t'
  back : s'.Matches s t' t

section twins

variable {s s' s₁ s₁' : Store} {t t' u u' : TypeId} {n : Node}

theorem Formed.eq_of_identity_eq (hs : s.Formed) (ht : t.index < s.size) (hu : u.index < s.size)
    (h : (s.node t).identity = (s.node u).identity) : t = u := by
  have hids := hs.complete t ht
  rw [h, hs.complete u hu] at hids
  exact (Option.some.inj hids).symm

theorem Matches.known (h : s.Matches s' t t') : t.index < s.size := by
  cases h
  assumption

theorem Matches.unique (hs' : s'.Formed) (h : s.Matches s' t t') (h' : s.Matches s' t u') :
    t' = u' := by
  induction h generalizing u' with
  | intro f _ known' node _ ih =>
      cases h' with
      | intro g _ known₂ node₂ components₂ =>
          refine hs'.eq_of_identity_eq known' known₂ ?_
          rw [node, node₂, Node.rename_congr fun c hc => ih c hc (components₂ c hc)]

theorem Matches.mono (h : s.Extends s₁) (h' : s'.Extends s₁') (ht : s.Matches s' t t') :
    s₁.Matches s₁' t t' := by
  induction ht with
  | intro f known known' node _ ih =>
      refine .intro f (Nat.lt_of_lt_of_le known h.size_le) (Nat.lt_of_lt_of_le known' h'.size_le) ?_ ?_
      · rw [h.node_eq _ known, h'.node_eq _ known', h'.numbers_eq, node]
      · rw [h.node_eq _ known]
        exact ih

theorem Twins.symm (h : s.Twins s' t t') : s'.Twins s t' t := ⟨h.back, h.there⟩

theorem Twins.mono (h : s.Extends s₁) (h' : s'.Extends s₁') (ht : s.Twins s' t t') :
    s₁.Twins s₁' t t' :=
  ⟨ht.there.mono h h', ht.back.mono h' h⟩

theorem Twins.unique (hs' : s'.Formed) (h : s.Twins s' t t') (h' : s.Twins s' t u') : t' = u' :=
  h.there.unique hs' h'.there

/-- The twin of a type in another store, or the type itself if it has none. -/
noncomputable def twin (s s' : Store) (t : TypeId) : TypeId :=
  open Classical in if h : ∃ t', s.Twins s' t t' then h.choose else t

theorem Twins.twin_eq (hs' : s'.Formed) (h : s.Twins s' t t') : s.twin s' t = t' := by
  have hex : ∃ t', s.Twins s' t t' := ⟨t', h⟩
  rw [twin, dif_pos hex]
  exact hex.choose_spec.unique hs' h

/-- Twins stay twins while the stores grow. -/
theorem Twins.twin_mono (hs' : s'.Formed) (hs₁' : s₁'.Formed) (h : s.Extends s₁)
    (h' : s'.Extends s₁') (ht : s.Twins s' t t') : s₁.twin s₁' t = s.twin s' t := by
  rw [ht.twin_eq hs', (ht.mono h h').twin_eq hs₁']

theorem Formed.rename_fixed (hs : s.Formed) (ht : t.isFixed) (numbers : Numbering)
    (f : TypeId → TypeId) :
    (s.node t).components = [] ∧ (s.node t).rename numbers f = s.node t := by
  obtain ⟨i⟩ := t
  have hi : i < TypeId.fixedCount := by simpa [TypeId.isFixed] using ht
  rw [hs.node_fixed hi]
  have hi : i < 12 := hi
  interval_cases i <;> exact ⟨rfl, rfl⟩

theorem Matches.fixed (hs : s.Formed) (hs' : s'.Formed) (ht : t.isFixed) : s.Matches s' t t := by
  have hi : t.index < TypeId.fixedCount := by simpa [TypeId.isFixed] using ht
  have hnode : s'.node t = s.node t := (hs'.node_fixed hi).trans (hs.node_fixed hi).symm
  obtain ⟨hcomponents, hrename⟩ := hs.rename_fixed ht s'.numbers id
  refine .intro id (hs.known_of_isFixed ht) (hs'.known_of_isFixed ht) ?_ (by simp [hcomponents])
  rw [hnode, hrename]

theorem Twins.fixed (hs : s.Formed) (hs' : s'.Formed) (ht : t.isFixed) : s.Twins s' t t :=
  ⟨.fixed hs hs' ht, .fixed hs' hs ht⟩

/-- What has only components with twins has a twin. -/
theorem Matches.intern (hs : s.Formed) (hs' : s'.Formed) {f : TypeId → TypeId} {n' : Node}
    (hn : ∀ c ∈ n.components, s.Matches s' c (f c))
    (hn' : n'.identity = (n.rename s'.numbers f).identity) :
    (s.intern n).2.Matches (s'.intern n').2 (s.intern n).1 (s'.intern n').1 := by
  obtain ⟨hlt, hid⟩ := hs.node_intern (n := n)
  obtain ⟨hlt', hid'⟩ := hs'.node_intern (n := n')
  refine .intro f hlt hlt' ?_ fun c hc => ?_
  · rw [hid', hn', numbers_intern, Node.identity_rename, Node.identity_rename, hid]
  · exact (hn c ((Node.mem_components_of_identity_eq hid c).mp hc)).mono extends_intern extends_intern

theorem Twins.intern (hs : s.Formed) (hs' : s'.Formed) (hn : n.Ordered s.numbers)
    (hcomponents : ∀ c ∈ n.components, ∃ c', s.Twins s' c c') :
    (s.intern n).2.Twins (s'.intern (n.rename s'.numbers (s.twin s'))).2 (s.intern n).1
      (s'.intern (n.rename s'.numbers (s.twin s'))).1 := by
  have htwin : ∀ c ∈ n.components, s.Twins s' c (s.twin s' c) := by
    intro c hc
    obtain ⟨c', h⟩ := hcomponents c hc
    rwa [h.twin_eq hs']
  have hback : ∀ c ∈ n.components, s'.twin s (s.twin s' c) = c :=
    fun c hc => (htwin c hc).symm.twin_eq hs
  constructor
  · exact Matches.intern hs hs' (fun c hc => (htwin c hc).there) rfl
  · refine Matches.intern hs' hs (f := s'.twin s) (fun c hc => ?_) ?_
    · obtain ⟨d, hd, rfl⟩ := Node.mem_components_rename.mp hc
      rw [hback d hd]
      exact (htwin d hd).back
    · rw [Node.rename_back hn hback]

end twins

end Store

/-- The second is the first with every type replaced by its twin. -/
structure Store.Same {α : Type} [Naming α] (s s' : Store) (a b : α) : Prop where
  twins : ∀ t ∈ Naming.ids a, ∃ t', s.Twins s' t t'
  eq : b = Naming.rename (s.twin s') a

/-- Two well formed stores. -/
structure Stores where
  first : Store
  second : Store
  formed : first.Formed
  formed' : second.Formed

namespace Stores

variable {α β : Type} [Naming α] [Naming β] {w w₁ w₂ : Stores} {a b : α}

structure Grows (w w₁ : Stores) : Prop where
  first : w.first.Extends w₁.first
  second : w.second.Extends w₁.second

theorem Grows.refl : w.Grows w := ⟨.refl _, .refl _⟩

theorem Grows.trans (h : w.Grows w₁) (h' : w₁.Grows w₂) : w.Grows w₂ :=
  ⟨h.first.trans h'.first, h.second.trans h'.second⟩

abbrev Same (w : Stores) (a b : α) : Prop := w.first.Same w.second a b

theorem Same.mono (h : w.Grows w₁) (hab : w.Same a b) : w₁.Same a b where
  twins t ht := (hab.twins t ht).imp fun _ => .mono h.first h.second
  eq := by
    rw [hab.eq]
    refine rename_congr fun t ht => ?_
    obtain ⟨t', htwins⟩ := hab.twins t ht
    exact (htwins.twin_mono w.formed' w₁.formed' h.first h.second).symm

/-- Two computations, each on its store, have the same result up to ids. -/
def Together (w : Stores) (m m' : Build α) : Prop :=
  ∃ w₁ : Stores, w.Grows w₁ ∧ w₁.first = (m w.first).2 ∧ w₁.second = (m' w.second).2 ∧
    w₁.Same (m w.first).1 (m' w.second).1

theorem together_pure (h : w.Same a b) : w.Together (pure a) (pure b) :=
  ⟨w, .refl, rfl, rfl, h⟩

theorem Together.bind {m m' : Build α} {k k' : α → Build β} (hm : w.Together m m')
    (hk : ∀ w₁, w.Grows w₁ → ∀ a b, w₁.Same a b → w₁.Together (k a) (k' b)) :
    w.Together (m >>= k) (m' >>= k') := by
  obtain ⟨w₁, hgrows, hfirst, hsecond, hsame⟩ := hm
  obtain ⟨w₂, hgrows', hfirst', hsecond', hsame'⟩ := hk w₁ hgrows _ _ hsame
  rw [hfirst] at hfirst' hsame'
  rw [hsecond] at hsecond' hsame'
  exact ⟨w₂, hgrows.trans hgrows', hfirst', hsecond', hsame'⟩

theorem together_quiet {m m' : Build Unit} (hm : ∀ s : Store, s.Alike (m s).2)
    (hm' : ∀ s : Store, s.Alike (m' s).2) : w.Together m m' :=
  ⟨⟨(m w.first).2, (m' w.second).2, (hm _).formed w.formed, (hm' _).formed w.formed'⟩,
    ⟨(hm _).toExtends, (hm' _).toExtends⟩, rfl, rfl, ⟨fun _ h => absurd h List.not_mem_nil, rfl⟩⟩

theorem same_of_twins {t t' : TypeId} (h : w.first.Twins w.second t t') : w.Same t t' where
  twins _ hu := ⟨t', List.mem_singleton.mp hu ▸ h⟩
  eq := (h.twin_eq w.formed').symm

theorem same_fixed {t : TypeId} (ht : t.isFixed) : w.Same t t :=
  same_of_twins (.fixed w.formed w.formed' ht)

/-- Nodes with the same components up to ids make the same type up to ids. -/
theorem together_intern {n n' : Node} (hn : n.Ordered w.first.numbers)
    (hcomponents : ∀ c ∈ n.components, ∃ c', w.first.Twins w.second c c')
    (hn' : n' = n.rename w.second.numbers (w.first.twin w.second)) :
    w.Together (Build.intern n) (Build.intern n') := by
  subst hn'
  have hknown : ∀ c ∈ n.components, c.index < w.first.size := fun c hc => by
    obtain ⟨c', h⟩ := hcomponents c hc
    exact h.there.known
  have hknown' : ∀ c ∈ (n.rename w.second.numbers (w.first.twin w.second)).components,
      c.index < w.second.size := by
    intro c hc
    obtain ⟨d, hd, rfl⟩ := Node.mem_components_rename.mp hc
    obtain ⟨c', h⟩ := hcomponents d hd
    rw [h.twin_eq w.formed']
    exact h.back.known
  let w₁ : Stores := ⟨_, _, w.formed.intern hknown, w.formed'.intern hknown'⟩
  exact ⟨w₁, ⟨Store.extends_intern, Store.extends_intern⟩, rfl, rfl,
    same_of_twins (w := w₁) (.intern w.formed w.formed' hn hcomponents)⟩

theorem mem_ids {t : TypeId} {ts : List TypeId} : t ∈ ids ts ↔ t ∈ ts := by
  simp [ids]

/-- Members in another order and with repetitions make the same type up to ids. -/
theorem together_members {ts ts' : List TypeId} (node : List TypeId → Node) {none : TypeId}
    (hnone : none.isFixed)
    (hordered : ∀ ν l, l.Pairwise (TypeId.Before ν) → (node l).Ordered ν)
    (hcomponents : ∀ l, (node l).components = l)
    (hrename : ∀ ν l f, (node l).rename ν f = node (TypeId.sortUnique ν (l.map f)))
    (hts : w.Same ts ts') :
    w.Together (do Build.ofMembers none node (← Build.inOrder ts))
      (do Build.ofMembers none node (← Build.inOrder ts')) := by
  have htwins : ∀ t ∈ TypeId.sortUnique w.first.numbers ts, ∃ t', w.first.Twins w.second t t' :=
    fun t ht => hts.twins t (mem_ids.mpr (TypeId.mem_sortUnique.mp ht))
  have hsorted : TypeId.sortUnique w.second.numbers ts' = TypeId.sortUnique w.second.numbers
      ((TypeId.sortUnique w.first.numbers ts).map (w.first.twin w.second)) := by
    refine TypeId.eq_of_sorted (TypeId.sorted_sortUnique _) (TypeId.sorted_sortUnique _) fun t => ?_
    rw [hts.eq]
    simp [TypeId.mem_sortUnique, rename]
  have hinjective : ∀ a ∈ TypeId.sortUnique w.first.numbers ts,
      ∀ b ∈ TypeId.sortUnique w.first.numbers ts,
      w.first.twin w.second a = w.first.twin w.second b → a = b := by
    intro a ha b hb hab
    obtain ⟨a', h⟩ := htwins a ha
    obtain ⟨b', h'⟩ := htwins b hb
    rw [h.twin_eq w.formed', h'.twin_eq w.formed'] at hab
    subst hab
    exact h.symm.unique w.formed h'.symm
  change ∃ w₁ : Stores, w.Grows w₁ ∧
    w₁.first = (Build.ofMembers none node (TypeId.sortUnique w.first.numbers ts) w.first).2 ∧
    w₁.second = (Build.ofMembers none node (TypeId.sortUnique w.second.numbers ts') w.second).2 ∧
    w₁.Same (Build.ofMembers none node (TypeId.sortUnique w.first.numbers ts) w.first).1
      (Build.ofMembers none node (TypeId.sortUnique w.second.numbers ts') w.second).1
  rw [hsorted]
  have hpairwise : (TypeId.sortUnique w.first.numbers ts).Pairwise (TypeId.Before w.first.numbers) :=
    TypeId.sorted_sortUnique ts
  generalize TypeId.sortUnique w.first.numbers ts = l at htwins hinjective hpairwise
  rcases l with _ | ⟨a, _ | ⟨b, rest⟩⟩
  · exact together_pure (same_fixed hnone)
  · obtain ⟨a', h⟩ := htwins a (by simp)
    refine together_pure (same_of_twins ?_)
    rw [h.twin_eq w.formed']
    exact h
  -- Two members keep apart, so there are two members on the other side as well.
  have hne : a ≠ b := ((List.pairwise_cons.mp hpairwise).1 b (by simp)).ne
  have hmember : ∀ t ∈ a :: b :: rest, w.first.twin w.second t ∈
      TypeId.sortUnique w.second.numbers ((a :: b :: rest).map (w.first.twin w.second)) :=
    fun t ht => TypeId.mem_sortUnique.mpr (List.mem_map_of_mem ht)
  have ha := hmember a (by simp)
  have hb := hmember b (by simp)
  have hintern := together_intern (n := node (a :: b :: rest)) (hordered _ _ hpairwise)
    (by rw [hcomponents]; exact htwins) (hrename _ _ _).symm
  rcases hl : TypeId.sortUnique w.second.numbers ((a :: b :: rest).map (w.first.twin w.second)) with
    _ | ⟨x, _ | ⟨y, rest'⟩⟩
  · exact absurd (hl ▸ ha) List.not_mem_nil
  · rw [hl, List.mem_singleton] at ha hb
    exact absurd (hinjective a (by simp) b (by simp) (ha.trans hb.symm)) hne
  · rw [hl] at hintern
    exact hintern

theorem together_rawUnion {ts ts' : List TypeId} (h : w.Same ts ts') :
    w.Together (Build.rawUnion ts) (Build.rawUnion ts') :=
  together_members .union rfl (fun _ _ h => h) (fun _ => rfl) (fun _ _ _ => rfl) h

theorem together_rawIntersection {ts ts' : List TypeId} (h : w.Same ts ts') :
    w.Together (Build.rawIntersection ts) (Build.rawIntersection ts') :=
  together_members .intersection rfl (fun _ _ h => h) (fun _ => rfl) (fun _ _ _ => rfl) h

end Stores

end TypeResolution
