import TypeResolution.Proofs.Evaluation.Rebuilding
import TypeResolution.Proofs.Limits.Descent
import TypeResolution.Proofs.Narrowing.Values
import TypeResolution.Proofs.Normal.Union

/-!
Types that need no resolving, and what evaluating does to their values. Evaluating loses no value,
since it only flattens unions and drops members that others take in. It turns the members of a union
of objects into the members of its result, with the same fields; a field may get more values.
-/

namespace TypeResolution

open Store

/-- Nodes whose values are those that their components give. -/
def Node.isConcrete : Node → Bool
  | .error | .intrinsic _ | .literal _ | .union _ | .object _ | .function _ | .array _ => true
  | _ => false

namespace Store

/-- Needs no resolving: consists of concrete nodes only. -/
inductive Concrete (s : Store) : TypeId → Prop
  | intro {t : TypeId} : t.index < s.size → (s.node t).isConcrete →
      (∀ c ∈ (s.node t).components, Concrete s c) → Concrete s t

variable {s s' : Store} {t : TypeId}

namespace Concrete

theorem known (h : s.Concrete t) : t.index < s.size := by
  cases h
  assumption

theorem node (h : s.Concrete t) : (s.node t).isConcrete := by
  cases h
  assumption

theorem component {c : TypeId} (h : s.Concrete t) (hc : c ∈ (s.node t).components) :
    s.Concrete c := by
  cases h with
  | intro _ _ hparts => exact hparts c hc

theorem of_components {n : Node} (h : s.Concrete t) (hn : s.node t = n) :
    ∀ c ∈ n.components, s.Concrete c :=
  fun _ hc => h.component (hn ▸ hc)

theorem mono (h : s.Concrete t) (hs : s.Extends s') : s'.Concrete t := by
  induction h with
  | intro hlt hn _ ih =>
      refine .intro (Nat.lt_of_lt_of_le hlt hs.size_le) ?_ ?_ <;> rw [hs.node_eq _ hlt]
      · exact hn
      · exact ih

theorem of_fixed (hs : s.Formed) (ht : t.isFixed) : s.Concrete t := by
  obtain ⟨i⟩ := t
  have hi : i < TypeId.fixedCount := by simpa [TypeId.isFixed] using ht
  refine .intro (hs.known_of_isFixed ht) ?_ ?_ <;> rw [hs.node_fixed hi] <;>
    have hi : i < 12 := hi <;> interval_cases i <;> simp [Node.fixed, Node.isConcrete, Node.components]

/-- A node of concrete components, which may be an object whose fields are in another order. -/
theorem made {n : Node} (hknown : t.index < s.size) (hid : (s.node t).identity = n.identity)
    (hn : n.isConcrete) (hparts : ∀ c ∈ n.components, s.Concrete c) : s.Concrete t := by
  refine .intro hknown ?_ fun c hc => hparts c ((Node.mem_components_of_identity_eq hid c).mp hc)
  rcases Node.eq_or_objects_of_identity_eq hid with h | ⟨a, b, ha, _, _⟩
  · exact h ▸ hn
  · rw [ha]
    rfl

theorem of_mem_unionLeaves {l : TypeId} (h : s.Concrete t) (hl : l ∈ s.unionLeaves t) :
    s.Concrete l :=
  forall_mem_leavesAt (p := s.Concrete)
    (fun _ _ hu hn _ hm => hu.component (Node.unionMembers?_subset _ _ hn hm)) h l hl

end Concrete

/-- Apart from `never`, the members are objects. -/
def OnlyObjects (s : Store) (t : TypeId) : Prop :=
  ∀ l ∈ s.unionLeaves t, l = .never ∨ ∃ o, s.node l = .object o

theorem unionLeaves_union (hs : s.Formed) {members : List TypeId}
    (hn : s.node t = .union members) : s.unionLeaves t = members.flatMap s.unionLeaves := by
  have hparts : ∀ m ∈ members, s.leavesAt Node.unionMembers? t.index m = s.unionLeaves m := by
    intro m hm
    have hm : m ∈ (s.node t).components := by
      rw [hn]
      exact hm
    exact hs.leavesAt_eq_leaves Node.unionMembers?_subset (hs.index_lt hm)
  simp only [unionLeaves, leaves, leavesAt, hn, Node.unionMembers?]
  exact List.flatMap_congr hparts

end Store

/-- Every field of `p` is a field of `o` that may have got more values, and no name is lost. -/
structure ShapeWidens (F : Store) (o p : ObjectShape) : Prop where
  fields : ∀ g ∈ p.fields, ∃ f ∈ o.fields, f.name = g.name ∧ f.optional = g.optional ∧
    F.values f.type ⊆ F.values g.type
  names : ∀ f ∈ o.fields, ∃ g ∈ p.fields, g.name = f.name
  index : ∀ u, p.stringIndex = some u → ∃ v, o.stringIndex = some v ∧ F.values v ⊆ F.values u

namespace ShapeWidens

variable {F : Store} {o p : ObjectShape}

theorem refl (F : Store) (o : ObjectShape) : ShapeWidens F o o where
  fields f hf := ⟨f, hf, rfl, rfl, subset_rfl⟩
  names f hf := ⟨f, hf, rfl⟩
  index u hu := ⟨u, hu, subset_rfl⟩

theorem hasShape {x : Datum} (h : ShapeWidens F o p) (hx : HasShape F.values Datum.get x o) :
    HasShape F.values Datum.get x p where
  fields g hg := by
    obtain ⟨f, hf, hname, hoptional, hvalues⟩ := h.fields g hg
    have hfield := hx.fields f hf
    unfold HasField at hfield ⊢
    rw [hname, hoptional] at hfield
    split at hfield
    · exact hvalues hfield
    · exact hfield
  index u hu name y hy := by
    obtain ⟨v, hv, hvalues⟩ := h.index u hu
    exact hvalues (hx.index v hv name y hy)

theorem isEmpty (h : ShapeWidens F o p) (ho : o.isEmpty) : p.isEmpty := by
  obtain ⟨hfields, hindex⟩ : o.fields = [] ∧ o.stringIndex = none := by
    simpa [ObjectShape.isEmpty] using ho
  have hp : p.fields = [] := by
    refine List.eq_nil_iff_forall_not_mem.mpr fun g hg => ?_
    obtain ⟨f, hf, _⟩ := h.fields g hg
    simp [hfields] at hf
  cases hu : p.stringIndex with
  | none => simp [ObjectShape.isEmpty, hp, hu]
  | some u =>
      obtain ⟨v, hv, _⟩ := h.index u hu
      simp [hindex] at hv

theorem values_subset (hF : F.Formed) (h : ShapeWidens F o p) {t r : TypeId}
    (ht : F.node t = .object o) (hr : F.node r = .object p) : F.values t ⊆ F.values r := by
  intro x hx
  rw [mem_values_object hF ht] at hx
  rw [mem_values_object hF hr]
  exact ⟨⟨hx.1.1, h.hasShape hx.1.2⟩, hx.2.imp_left h.isEmpty⟩

end ShapeWidens

def LeafWidens (F : Store) (l m : TypeId) : Prop :=
  ∃ o p, F.node l = .object o ∧ F.node m = .object p ∧ ShapeWidens F o p

/-- Members of a union of objects before and after it is evaluated; `never` may come and go. -/
structure LeavesWiden (F : Store) (ls ms : List TypeId) : Prop where
  forth : ∀ l ∈ ls, l = .never ∨ ∃ m ∈ ms, LeafWidens F l m
  back : ∀ m ∈ ms, m = .never ∨ ∃ l ∈ ls, LeafWidens F l m

theorem LeavesWiden.refl {F : Store} {ls : List TypeId}
    (h : ∀ l ∈ ls, l = .never ∨ ∃ o, F.node l = .object o) : LeavesWiden F ls ls where
  forth l hl := (h l hl).imp_right fun ⟨o, ho⟩ => ⟨l, hl, o, o, ho, ho, .refl F o⟩
  back l hl := (h l hl).imp_right fun ⟨o, ho⟩ => ⟨l, hl, o, o, ho, ho, .refl F o⟩

/-- Members of unions of objects, which are evaluated one by one. -/
theorem LeavesWiden.flatMap {F : Store} {ts rs : List TypeId} {leaves : TypeId → List TypeId}
    (h : List.Forall₂ (fun t r => LeavesWiden F (leaves t) (leaves r)) ts rs) :
    LeavesWiden F (ts.flatMap leaves) (rs.flatMap leaves) := by
  induction h with
  | nil => exact ⟨by simp, by simp⟩
  | cons h _ ih =>
      simp only [List.flatMap_cons]
      constructor
      · intro l hl
        rcases List.mem_append.mp hl with hl | hl
        · exact (h.forth l hl).imp_right fun ⟨m, hm, hlm⟩ => ⟨m, List.mem_append_left _ hm, hlm⟩
        · exact (ih.forth l hl).imp_right fun ⟨m, hm, hlm⟩ => ⟨m, List.mem_append_right _ hm, hlm⟩
      · intro m hm
        rcases List.mem_append.mp hm with hm | hm
        · exact (h.back m hm).imp_right fun ⟨l, hl, hlm⟩ => ⟨l, List.mem_append_left _ hl, hlm⟩
        · exact (ih.back m hm).imp_right fun ⟨l, hl, hlm⟩ => ⟨l, List.mem_append_right _ hl, hlm⟩

theorem LeafWidens.ne_never {F : Store} (hF : F.Formed) {l m : TypeId} (h : LeafWidens F l m) :
    m ≠ .never := by
  obtain ⟨_, p, _, hp, _⟩ := h
  rintro rfl
  cases (hF.node_intrinsic .never).symm.trans hp

/-- Whether `never` is among the members does not matter. -/
theorem LeavesWiden.congr {F : Store} (hF : F.Formed) {ls ms ms' : List TypeId}
    (h : LeavesWiden F ls ms) (heq : ∀ m, m ≠ .never → (m ∈ ms' ↔ m ∈ ms)) :
    LeavesWiden F ls ms' where
  forth l hl := (h.forth l hl).imp_right fun ⟨m, hm, hlm⟩ =>
    ⟨m, (heq m (hlm.ne_never hF)).mpr hm, hlm⟩
  back m hm := by
    by_cases hnever : m = .never
    · exact .inl hnever
    · exact h.back m ((heq m hnever).mp hm)

theorem exists_of_forall₂ {α β : Type} {R : α → β → Prop} {p : α → Prop} {q : β → Prop}
    {l : List α} {l' : List β} (h : List.Forall₂ R l l') (hpq : ∀ a b, R a b → p a → q b)
    (ha : ∃ a ∈ l, p a) : ∃ b ∈ l', q b := by
  induction h with
  | nil => simp at ha
  | cons hab _ ih =>
      rw [List.exists_mem_cons_iff] at ha ⊢
      exact ha.imp (hpq _ _ hab) ih

/-- What is said in the later store `F` of a type and what it evaluates to. -/
structure Encloses (F : Store) (t r : TypeId) : Prop where
  values : F.values t ⊆ F.values r
  leaves : F.OnlyObjects t → LeavesWiden F (F.unionLeaves t) (F.unionLeaves r)

/-- A type without values that are lost. -/
structure Widens (F s : Store) (t r : TypeId) : Prop where
  left : s.Concrete t
  right : s.Concrete r
  encloses : s.Extends F → Encloses F t r

namespace Widens

variable {F s s' : Store} {t r : TypeId}

theorem mono (h : Widens F s t r) (hs : s.Extends s') : Widens F s' t r where
  left := h.left.mono hs
  right := h.right.mono hs
  encloses hF := h.encloses (hs.trans hF)

theorem refl (h : s.Concrete t) : Widens F s t t where
  left := h
  right := h
  encloses _ := ⟨subset_rfl, .refl⟩

end Widens

section union

variable {F s s' : Store} {ts flat : List TypeId} {r : TypeId}

/-- What is left when the literals among the members fall into their primitives has the values of
every member. -/
theorem exists_mem_absorbLiterals_values (hF : F.Formed) (hs : s.Formed) (hsF : s.Extends F)
    {l : TypeId} {x : Datum} (hl : l ∈ flat) (hknown : l.index < s.size) (hx : x ∈ F.values l) :
    ∃ m ∈ s.absorbLiterals (flat.filter (· ≠ .never)), x ∈ F.values m := by
  have hnever : l ≠ .never := by
    rintro rfl
    exact (mem_values_intrinsic hF .never).mp hx
  have hmem : l ∈ flat.filter (· ≠ .never) := List.mem_filter.mpr ⟨hl, by simpa using hnever⟩
  rcases mem_absorbLiterals hs hmem with h | ⟨v, hv, hprimitive⟩
  · exact ⟨l, h, hx⟩
  · exact ⟨_, hprimitive, mem_values_primitive hF ((hsF.node_eq l hknown).trans hv) hx⟩

/-- Objects are not absorbed. -/
theorem mem_absorbLiterals_objects (hs : s.Formed)
    (hobjects : ∀ l ∈ flat, l = .never ∨ ∃ o, s.node l = .object o) {l : TypeId} :
    l ∈ s.absorbLiterals (flat.filter (· ≠ .never)) ↔ l ∈ flat ∧ l ≠ .never := by
  have hfilter : ∀ {m}, m ∈ flat.filter (· ≠ .never) ↔ m ∈ flat ∧ m ≠ .never := by
    intro m
    simp
  have hliteral : ∀ m ∈ flat.filter (· ≠ .never), ∀ v, s.node m ≠ .literal v := by
    intro m hm v hv
    obtain ⟨hmem, hnever⟩ := hfilter.mp hm
    obtain ⟨o, ho⟩ := (hobjects m hmem).resolve_left hnever
    cases ho.symm.trans hv
  rw [← hfilter]
  constructor
  · intro h
    rcases mem_of_mem_absorbLiterals h with h | ⟨-, htrue, -⟩
    · exact h
    · exact absurd (hs.node_ofBool true) (hliteral _ htrue _)
  · intro h
    rcases mem_absorbLiterals hs h with h | ⟨v, hv, -⟩
    · exact h
    · exact absurd hv (hliteral _ ‹_› v)

theorem concrete_absorbLiterals (hs : s.Formed)
    (hflat : ∀ l ∈ flat, s.Concrete l ∧ s.unionMembers? l = none) :
    ∀ m ∈ s.absorbLiterals (flat.filter (· ≠ .never)), s.Concrete m ∧ s.unionMembers? m = none := by
  intro m hm
  rcases mem_of_mem_absorbLiterals hm with hm | ⟨rfl, -, -⟩
  · exact hflat m (List.mem_filter.mp hm).1
  · have hnode : s.node .boolean = .intrinsic .boolean := hs.node_intrinsic .boolean
    exact ⟨.of_fixed hs rfl, by simp [unionMembers?, hnode, Node.unionMembers?]⟩

/-- A union either is absorbed by one of its members or has what is left of them as members. -/
theorem Joined.members (hs : s.Formed) (hs' : s'.Formed) (h : s.Extends s')
    (hflat : ∀ l ∈ flat, s.Concrete l ∧ s.unionMembers? l = none) (hknown : r.index < s'.size)
    (hr : Joined s flat s' r) :
    s'.Concrete r ∧ s'.IsFlat r ∧
      (r ∈ flat ∧ (r = .error ∨ r = .any ∨ r = .unknown) ∨
        ∀ m, m ≠ .never →
          (m ∈ s'.unionMembers r ↔ m ∈ s.absorbLiterals (flat.filter (· ≠ .never)))) := by
  have hfixed : ∀ {t : TypeId}, t.isFixed → s'.Concrete t ∧ s'.IsFlat t := fun ht =>
    ⟨.of_fixed hs' ht, isFlat_of_not_union (unionMembers?_fixed hs' ht)⟩
  have hleft : ∀ m ∈ s.absorbLiterals (flat.filter (· ≠ .never)),
      s'.Concrete m ∧ s'.unionMembers? m = none := by
    intro m hm
    obtain ⟨hconcrete, hunion⟩ := concrete_absorbLiterals hs hflat m hm
    refine ⟨hconcrete.mono h, ?_⟩
    unfold unionMembers? at hunion ⊢
    rw [h.node_eq m hconcrete.known]
    exact hunion
  cases hr with
  | error hmem => exact ⟨(hfixed rfl).1, (hfixed rfl).2, .inl ⟨hmem, .inl rfl⟩⟩
  | any hmem => exact ⟨(hfixed rfl).1, (hfixed rfl).2, .inl ⟨hmem, .inr (.inl rfl)⟩⟩
  | unknown hmem => exact ⟨(hfixed rfl).1, (hfixed rfl).2, .inl ⟨hmem, .inr (.inr rfl)⟩⟩
  | never hnil =>
      refine ⟨(hfixed rfl).1, (hfixed rfl).2, .inr fun m hm => ?_⟩
      rw [hnil, unionMembers_of_not_union (unionMembers?_fixed hs' rfl)]
      simp [hm]
  | single hone =>
      rw [hone] at hleft ⊢
      obtain ⟨hconcrete, hunion⟩ := hleft r (by simp)
      refine ⟨hconcrete, isFlat_of_not_union hunion, .inr fun m _ => ?_⟩
      rw [unionMembers_of_not_union hunion]
  | union _ _ _ hms _ hn =>
      subst hms
      have hmembers : s'.unionMembers r = s.absorbLiterals (flat.filter (· ≠ .never)) := by
        unfold unionMembers
        rw [hn]
        rfl
      refine ⟨.made hknown (congrArg Node.identity hn) rfl fun c hc => (hleft c hc).1, fun m hm => ?_,
        .inr fun m _ => by rw [hmembers]⟩
      exact (hleft m (hmembers ▸ hm)).2

/-- What is said of a union in the later store `F`: it has the values of its members, and those of
objects are objects again. -/
structure Unites (F : Store) (ts : List TypeId) (r : TypeId) : Prop where
  values : ∀ t ∈ ts, F.values t ⊆ F.values r
  leaves : (∀ t ∈ ts, F.OnlyObjects t) → ∀ l, l ≠ .never →
    (l ∈ F.unionLeaves r ↔ ∃ t ∈ ts, l ∈ F.unionLeaves t)

theorem building_unites (hF : F.Formed) (hts : ∀ t ∈ ts, s.Concrete t) :
    building.Holds s (Build.union ts) fun s' r =>
      s'.Concrete r ∧ s'.IsFlat r ∧ (s'.Extends F → Unites F ts r) := by
  refine building.formed fun hs => ?_
  refine building.mono (building_joined fun t ht => (hts t ht).known) ?_
  rintro s' r h hs' ⟨hknown, hr⟩
  have hflat : ∀ l ∈ TypeId.sortUnique s.numbers (ts.flatMap s.unionLeaves),
      s.Concrete l ∧ s.unionMembers? l = none := by
    refine fun l hl => ⟨?_, flatLeaves_flat hs Node.unionMembers?_subset
      (fun t ht => (hts t ht).known) l hl⟩
    obtain ⟨t, ht, hl⟩ := List.mem_flatMap.mp (TypeId.mem_sortUnique.mp hl)
    exact (hts t ht).of_mem_unionLeaves hl
  have hmem : ∀ l, l ∈ TypeId.sortUnique s.numbers (ts.flatMap s.unionLeaves) ↔
      ∃ t ∈ ts, l ∈ s.unionLeaves t := fun l => by
    rw [TypeId.mem_sortUnique, List.mem_flatMap]
  obtain ⟨hconcrete, hisFlat, hmembers⟩ := hr.members hs hs' h hflat hknown
  refine ⟨hconcrete, hisFlat, fun hsF => ?_⟩
  have hsF' := h.trans hsF
  have hleaves : ∀ t ∈ ts, F.unionLeaves t = s.unionLeaves t := fun t ht =>
    unionLeaves_eq hsF' hs (hts t ht).known
  have hresult : F.unionLeaves r = s'.unionMembers r := by
    rw [unionLeaves_eq hsF hs' hknown, hisFlat.mem_unionLeaves]
  generalize TypeId.sortUnique s.numbers (ts.flatMap s.unionLeaves) = flat at hflat hmem hmembers
  have hsome : ∀ t ∈ ts, ∀ x ∈ F.values t, ∃ l ∈ flat, x ∈ F.values l := by
    intro t ht x hx
    obtain ⟨l, hl, hx⟩ := (exists_mem_unionLeaves_values hF
      (Nat.lt_of_lt_of_le (hts t ht).known hsF'.size_le)).mpr hx
    exact ⟨l, (hmem l).mpr ⟨t, ht, hleaves t ht ▸ hl⟩, hx⟩
  rcases hmembers with ⟨hr, habsorbs⟩ | hmembers
  · constructor
    · intro t _ x _
      rcases habsorbs with rfl | rfl | rfl
      · exact mem_values_error hF
      · exact (mem_values_intrinsic hF .any).mpr trivial
      · exact (mem_values_intrinsic hF .unknown).mpr trivial
    · intro hobjects
      obtain ⟨t, ht, hl⟩ := (hmem r).mp hr
      rw [← hleaves t ht] at hl
      have hnode : ∀ o, F.node r ≠ .object o := by
        have herror : F.node .error = .error := hF.node_fixed (i := 0) (by decide)
        have hany : F.node .any = .intrinsic .any := hF.node_intrinsic .any
        have hunknown : F.node .unknown = .intrinsic .unknown := hF.node_intrinsic .unknown
        rcases habsorbs with rfl | rfl | rfl <;> simp [herror, hany, hunknown]
      rcases hobjects t ht r hl with rfl | ⟨o, ho⟩
      · exact absurd habsorbs (by decide)
      · exact absurd ho (hnode o)
  · constructor
    · intro t ht x hx
      obtain ⟨l, hl, hx⟩ := hsome t ht x hx
      obtain ⟨m, hm, hx⟩ := exists_mem_absorbLiterals_values hF hs hsF' hl (hflat l hl).1.known hx
      have hnever : m ≠ .never := by
        rintro rfl
        exact (mem_values_intrinsic hF .never).mp hx
      refine (exists_mem_unionLeaves_values hF (Nat.lt_of_lt_of_le hknown hsF.size_le)).mp ⟨m, ?_, hx⟩
      rw [hresult]
      exact (hmembers m hnever).mpr hm
    · intro hobjects l hnever
      have hflatObjects : ∀ l ∈ flat, l = .never ∨ ∃ o, s.node l = .object o := by
        intro l hl
        obtain ⟨t, ht, hmem⟩ := (hmem l).mp hl
        refine (hobjects t ht l (hleaves t ht ▸ hmem)).imp_right fun ⟨o, ho⟩ => ⟨o, ?_⟩
        rw [← hsF'.node_eq l (hflat l hl).1.known]
        exact ho
      rw [hresult, hmembers l hnever, mem_absorbLiterals_objects hs hflatObjects, hmem]
      refine ⟨fun ⟨⟨t, ht, hl⟩, _⟩ => ⟨t, ht, hleaves t ht ▸ hl⟩, fun ⟨t, ht, hl⟩ => ⟨⟨t, ht, ?_⟩, hnever⟩⟩
      exact hleaves t ht ▸ hl

end union

section rebuilding

variable {F s : Store} {t : TypeId}

theorem Store.OnlyObjects.of_mem_union (hF : F.Formed) {members : List TypeId}
    (hn : F.node t = .union members) (h : F.OnlyObjects t) : ∀ m ∈ members, F.OnlyObjects m := by
  intro m hm l hl
  refine h l ?_
  rw [unionLeaves_union hF hn]
  exact List.mem_flatMap.mpr ⟨m, hm, hl⟩

/-- What interning an object with a shape gives. -/
theorem building_shape {o : ObjectShape} (ho : ∀ c ∈ (Node.object o).components, s.Concrete c) :
    building.Holds s (Build.object o) fun s' r => s'.Concrete r ∧
      ∃ p, s'.node r = .object p ∧ p.fields.Perm o.fields ∧ p.stringIndex = o.stringIndex := by
  refine building.mono (building_intern fun c hc => (ho c hc).known) ?_
  rintro s' r h _ ⟨hknown, hid⟩
  refine ⟨.made hknown hid rfl fun c hc => (ho c hc).mono h, ?_⟩
  obtain ⟨p, hp, hpo⟩ := Node.exists_object_of_identity_eq hid
  exact ⟨p, hp, ObjectShape.perm_of_sorted_eq hpo, ObjectShape.stringIndex_of_sorted_eq hpo⟩

theorem building_leaf {n : Node} (hn : ∀ c ∈ n.components, s.Concrete c) (hconcrete : n.isConcrete)
    (hobject : ∀ o, n ≠ .object o) :
    building.Holds s (Build.intern n) fun s' r => s'.Concrete r ∧ s'.node r = n := by
  refine building.mono (building_node (fun c hc => (hn c hc).known) hobject) ?_
  rintro s' r h _ ⟨hknown, hnode⟩
  exact ⟨.made hknown (congrArg Node.identity hnode) hconcrete fun c hc => (hn c hc).mono h, hnode⟩

theorem ShapeWidens.of_perm {o p q : ObjectShape} (h : ShapeWidens F o q)
    (hperm : p.fields.Perm q.fields) (hindex : p.stringIndex = q.stringIndex) :
    ShapeWidens F o p where
  fields g hg := h.fields g (hperm.mem_iff.mp hg)
  names f hf := by
    obtain ⟨g, hg, hname⟩ := h.names f hf
    exact ⟨g, hperm.mem_iff.mpr hg, hname⟩
  index u hu := h.index u (hindex ▸ hu)

theorem shapeWidens_of_components {o : ObjectShape} {gs : List Field} {index : Option TypeId}
    (hgs : List.Forall₂ (FieldBecomes (Widens F s)) o.fields gs)
    (hi : Option.Rel (Widens F s) o.stringIndex index) (hsF : s.Extends F) :
    ShapeWidens F o ⟨gs, index⟩ where
  fields g hg := by
    have hpairs := (List.forall₂_and_left (p := (· ∈ o.fields)) _ _).mpr ⟨fun _ h => h, hgs⟩
    refine forall_right_of_forall₂ hpairs (q := fun g => ∃ f ∈ o.fields, f.name = g.name ∧
      f.optional = g.optional ∧ F.values f.type ⊆ F.values g.type) ?_ g hg
    rintro f _ ⟨hf, r, rfl, hr⟩
    exact ⟨f, hf, rfl, rfl, (hr.encloses hsF).values⟩
  names f hf := by
    refine exists_of_forall₂ (p := (· = f)) hgs ?_ ⟨f, hf, rfl⟩
    rintro _ _ ⟨r, rfl, _⟩ rfl
    rfl
  index u hu := by
    obtain rfl : index = some u := hu
    generalize o.stringIndex = old at hi
    cases hi with
    | some hr => exact ⟨_, rfl, (hr.encloses hsF).values⟩

theorem concrete_shape {C : TypeId → TypeId → Prop} {o : ObjectShape} {gs : List Field}
    {index : Option TypeId} (hC : ∀ {t r}, C t r → s.Concrete r)
    (hgs : List.Forall₂ (FieldBecomes C) o.fields gs) (hi : Option.Rel C o.stringIndex index) :
    ∀ c ∈ (Node.object ⟨gs, index⟩).components, s.Concrete c := by
  intro c hc
  simp only [Node.components, List.mem_append, List.mem_map, Option.mem_toList] at hc
  rcases hc with ⟨g, hg, rfl⟩ | hc
  · refine forall_right_of_forall₂ hgs (q := fun g => s.Concrete g.type) ?_ g hg
    rintro f _ ⟨r, rfl, hr⟩
    exact hC hr
  · generalize o.stringIndex = old at hi
    cases hi with
    | none => cases hc
    | some hr =>
        cases hc
        exact hC hr

theorem isFlat_of_node {n : Node} (hn : s.node t = n) (h : n.unionMembers? = none) : s.IsFlat t :=
  isFlat_of_not_union (by rw [unionMembers?, hn, h])

variable (hF : F.Formed) (ht : s.Concrete t)

include hF ht

theorem widens_union {ms rs : List TypeId} (hn : s.node t = .union ms)
    (hrs : List.Forall₂ (Widens F s) ms rs) :
    building.Holds s (Build.union rs) fun s' r => Widens F s' t r ∧ s'.IsFlat r := by
  have hright : ∀ r ∈ rs, s.Concrete r := forall_right_of_forall₂ hrs fun _ _ h => h.right
  refine building.mono (building_unites hF hright) ?_
  rintro s' r h hs' ⟨hconcrete, hflat, hunites⟩
  refine ⟨⟨ht.mono h, hconcrete, fun hsF => ?_⟩, hflat⟩
  have hsF' := h.trans hsF
  have hnF := (hsF'.node_eq t ht.known).trans hn
  have hunites := hunites hsF
  constructor
  · intro x hx
    obtain ⟨r', hr', hx⟩ := exists_of_forall₂ (q := (x ∈ F.values ·)) hrs
      (fun m r h hx => (h.encloses hsF').values hx) ((mem_values_union hF hnF).mp hx)
    exact hunites.values r' hr' hx
  · intro hobjects
    have hpairs : List.Forall₂ (fun m r => LeavesWiden F (F.unionLeaves m) (F.unionLeaves r)) ms rs := by
      refine ((List.forall₂_and_left _ _).mpr ⟨hobjects.of_mem_union hF hnF, hrs⟩).imp ?_
      exact fun m r ⟨hm, h⟩ => (h.encloses hsF').leaves hm
    have honly : ∀ r ∈ rs, F.OnlyObjects r := forall_right_of_forall₂ hpairs fun m r h l hl =>
      (h.back l hl).imp_right fun ⟨_, _, _, p, _, hp, _⟩ => ⟨p, hp⟩
    rw [unionLeaves_union hF hnF]
    refine (LeavesWiden.flatMap hpairs).congr hF fun l hl => ?_
    rw [hunites.leaves honly l hl, List.mem_flatMap]

theorem widens_object {o : ObjectShape} {gs : List Field} {index : Option TypeId}
    (hn : s.node t = .object o) (hgs : List.Forall₂ (FieldBecomes (Widens F s)) o.fields gs)
    (hi : Option.Rel (Widens F s) o.stringIndex index) :
    building.Holds s (Normal.rebuildObject t o ⟨gs, index⟩) fun s' r =>
      Widens F s' t r ∧ s'.IsFlat r := by
  unfold Normal.rebuildObject
  split
  · exact building.pure ⟨.refl ht, isFlat_of_node hn rfl⟩
  refine building.bind (building_shape (concrete_shape (fun h => h.right) hgs hi)) ?_
  rintro s₁ r h₁ _ ⟨hconcrete, p, hp, hperm, hindex⟩
  have hcopy : building.Holds s₁ (Build.copyFieldOrigins t r (gs.map (·.name))) fun _ _ => True :=
    building_quiet (alike_copyFieldOrigins _ _ _ _) trivial
  refine building.bind hcopy fun s₂ _ h₂ _ _ => building.pure ⟨⟨?_, hconcrete.mono h₂, fun hsF => ?_⟩, ?_⟩
  · exact ht.mono (h₁.trans h₂)
  · have hsF₁ := h₂.trans hsF
    have hsF₀ := h₁.trans hsF₁
    have htF : F.node t = .object o := (hsF₀.node_eq t ht.known).trans hn
    have hrF : F.node r = .object p := (hsF₁.node_eq r hconcrete.known).trans hp
    have hshape : ShapeWidens F o p := (shapeWidens_of_components hgs hi hsF₀).of_perm hperm hindex
    refine ⟨hshape.values_subset hF htF hrF, fun _ => ?_⟩
    have hleaf : LeafWidens F t r := ⟨o, p, htF, hrF, hshape⟩
    rw [unionLeaves_of_not_union (by rw [htF]; rfl), unionLeaves_of_not_union (by rw [hrF]; rfl)]
    exact ⟨fun l hl => .inr ⟨r, by simp, by simpa using List.mem_singleton.mp hl ▸ hleaf⟩,
      fun m hm => .inr ⟨t, by simp, by simpa using List.mem_singleton.mp hm ▸ hleaf⟩⟩
  · exact isFlat_of_node ((h₂.node_eq r hconcrete.known).trans hp) rfl

omit hF in
/-- A type that is neither a union nor an object has no members that matter. -/
theorem widens_leaf {s' : Store} {r : TypeId} {n : Node} (hs : s.Extends s') (hn : s.node t = n)
    (hunion : n.unionMembers? = none) (hobject : ∀ o, n ≠ .object o) (hnever : t ≠ .never)
    (hr : s'.Concrete r) (hvalues : s'.Extends F → F.values t ⊆ F.values r) : Widens F s' t r := by
  refine ⟨ht.mono hs, hr, fun hsF => ⟨hvalues hsF, fun honly => ?_⟩⟩
  have htF : F.node t = n := ((hs.trans hsF).node_eq t ht.known).trans hn
  rcases honly t (by rw [unionLeaves_of_not_union (by rw [htF, hunion])]; simp) with h | ⟨o, ho⟩
  · exact absurd h hnever
  · exact absurd (htF.symm.trans ho) (hobject o)

theorem widens_function {f : FunctionShape} {ps : List TypeId} {r : TypeId}
    (hn : s.node t = .function f) (hps : List.Forall₂ (Widens F s) f.params ps)
    (hr : Widens F s f.result r) :
    building.Holds s (Build.function ps r) fun s' u => Widens F s' t u ∧ s'.IsFlat u := by
  have hparts : ∀ c ∈ (Node.function ⟨ps, r⟩).components, s.Concrete c := by
    intro c hc
    rcases List.mem_append.mp hc with hc | hc
    · exact forall_right_of_forall₂ hps (fun _ _ h => h.right) c hc
    · exact List.mem_singleton.mp hc ▸ hr.right
  refine building.formed fun hs => building.mono (building_leaf hparts rfl (by simp)) ?_
  rintro s' u h _ ⟨hconcrete, hu⟩
  refine ⟨widens_leaf ht h hn rfl (by simp) ?_ hconcrete fun hsF => ?_, isFlat_of_node hu rfl⟩
  · rintro rfl
    cases (hs.node_intrinsic .never).symm.trans hn
  · intro x hx
    rw [mem_values_function hF (((h.trans hsF).node_eq t ht.known).trans hn)] at hx
    exact (mem_values_function hF ((hsF.node_eq u hconcrete.known).trans hu)).mpr hx

theorem widens_array {c r : TypeId} (hn : s.node t = .array c) (hr : Widens F s c r) :
    building.Holds s (Build.array r) fun s' u => Widens F s' t u ∧ s'.IsFlat u := by
  have hparts : ∀ d ∈ (Node.array r).components, s.Concrete d := fun d hd =>
    List.mem_singleton.mp hd ▸ hr.right
  refine building.formed fun hs => building.mono (building_leaf hparts rfl (by simp)) ?_
  rintro s' u h _ ⟨hconcrete, hu⟩
  refine ⟨widens_leaf ht h hn rfl (by simp) ?_ hconcrete fun hsF => ?_, isFlat_of_node hu rfl⟩
  · rintro rfl
    cases (hs.node_intrinsic .never).symm.trans hn
  · intro x hx
    rw [mem_values_array hF (((h.trans hsF).node_eq t ht.known).trans hn)] at hx
    rw [mem_values_array hF ((hsF.node_eq u hconcrete.known).trans hu)]
    obtain ⟨values, rfl, hvalues⟩ := hx
    exact ⟨values, rfl, fun v hv => (hr.encloses (h.trans hsF)).values (hvalues v hv)⟩

/-- Rebuilding a type loses no value and takes unions apart. -/
theorem rebuilds_widens : Rebuilds (Widens F) s t fun s' r => Widens F s' t r ∧ s'.IsFlat r where
  leaf hstructural := by
    refine ⟨.refl ht, isFlat_of_not_union ?_⟩
    cases hn : s.node t with
    | union ms =>
        rw [hn] at hstructural
        cases hstructural
    | _ => rw [unionMembers?, hn]; rfl
  union hn hrs := widens_union hF ht hn hrs
  intersection hn _ := by
    have hconcrete := ht.node
    rw [hn] at hconcrete
    cases hconcrete
  object hn hgs hi := widens_object hF ht hn hgs hi
  function hn hps hr := widens_function hF ht hn hps hr
  array hn hr := widens_array hF ht hn hr

end rebuilding

theorem rewriting_widens {F : Store} (hF : F.Formed) :
    Rewriting (fun _ => Concrete) (Widens F) where
  mono h ht := ht.mono h
  known ht := ht.known
  component ht _ hc := ht.component hc
  keeps h hr := hr.mono h
  stop ht := .refl ht
  leaf ht _ := .refl ht
  again hr := .refl hr.right
  union ht hn hrs := building.mono (widens_union hF ht hn hrs) fun _ _ _ _ h => h.1
  intersection ht hn hrs := reporting.mono ((rebuilds_widens hF ht).intersection hn hrs)
    fun _ _ _ _ h => h.1
  object ht hn hgs hi := building.mono (widens_object hF ht hn hgs hi) fun _ _ _ _ h => h.1
  function ht hn hps hr := building.mono (widens_function hF ht hn hps hr) fun _ _ _ _ h => h.1
  array ht hn hr := building.mono (widens_array hF ht hn hr) fun _ _ _ _ h => h.1

theorem Store.Concrete.isMeta {s : Store} {t : TypeId} (h : s.Concrete t) :
    (s.node t).isMeta = false := by
  have hnode := h.node
  cases hn : s.node t <;> rw [hn] at hnode <;> first | rfl | cases hnode

end TypeResolution
