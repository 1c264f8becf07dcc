import Mathlib.Data.Set.Insert
import Mathlib.Order.CompletePartialOrder
import TypeResolution.Proofs.Normal.Union

/-!
Types as sets of values. An interpretation gives a set to every type of a store, such that unions
and intersections are unions and intersections of sets, the primitives are disjoint, and an object
type is the set of the values that have its fields. What parameters and types that only evaluation
resolves mean is left open. The rewrites of normalization on lists of members keep the values that
some member has, or those that all members have.
-/

namespace TypeResolution

section values

variable {V : Type} (set : TypeId → Set V) (get : V → String → Option V) (x : V)

/-- A field may be absent if it is optional. -/
def HasField (f : Field) : Prop :=
  match get x f.name with
  | some y => y ∈ set f.type
  | none => f.optional = true

def HasIndex (index : Option TypeId) : Prop :=
  ∀ t, index = some t → ∀ name y, get x name = some y → y ∈ set t

structure HasShape (o : ObjectShape) : Prop where
  fields : ∀ f ∈ o.fields, HasField set get x f
  index : HasIndex set get x o.stringIndex

end values

/-- A meaning of the types of a store. -/
structure Interpretation (F : Store) (V : Type) where
  set : TypeId → Set V
  /-- The value of a field, if it is there. -/
  get : V → String → Option V
  array : Set V → Set V
  function : List (Set V) → Set V → Set V
  set_never : set .never = ∅
  set_unknown : set .unknown = Set.univ
  set_void : set .void = set .undefined
  set_undefined : ∃ x, set .undefined = {x}
  set_boolean : set .boolean = set .trueLiteral ∪ set .falseLiteral
  disjoint : [TypeId.string, .number, .boolean, .null, .undefined].Pairwise
    fun a b => Disjoint (set a) (set b)
  set_literal : ∀ t v, F.node t = .literal v → ∃ x ∈ set v.primitive, set t = {x}
  literal_injective : ∀ t u v w, F.node t = .literal v → F.node u = .literal w →
    set t = set u → t = u
  set_union : ∀ t members, F.node t = .union members → set t = {x | ∃ m ∈ members, x ∈ set m}
  set_intersection : ∀ t members, F.node t = .intersection members →
    set t = {x | ∀ m ∈ members, x ∈ set m}
  set_object : ∀ t o, F.node t = .object o →
    set t = {x | x ∉ set .null ∧ x ∉ set .undefined ∧ HasShape set get x o}
  set_array : ∀ t c, F.node t = .array c → set t = array (set c)
  array_subset : ∀ c, array c ⊆ (set .null)ᶜ ∩ (set .undefined)ᶜ
  set_function : ∀ t f, F.node t = .function f → set t = function (f.params.map set) (set f.result)
  function_subset : ∀ params result, function params result ⊆ (set .null)ᶜ ∩ (set .undefined)ᶜ

/-- Mentions neither `any` nor the error type where unions, intersections and objects are taken
apart, and nests objects at most `n` deep. -/
inductive Definite (s : Store) : Nat → TypeId → Prop
  | union {n : Nat} {t : TypeId} {members : List TypeId} : t.index < s.size →
      s.node t = .union members → (∀ m ∈ members, Definite s n m) → Definite s n t
  | intersection {n : Nat} {t : TypeId} {members : List TypeId} : t.index < s.size →
      s.node t = .intersection members → (∀ m ∈ members, Definite s n m) → Definite s n t
  | object {n : Nat} {t : TypeId} {o : ObjectShape} : t.index < s.size →
      s.node t = .object o → (∀ c ∈ (Node.object o).components, Definite s n c) →
      Definite s (n + 1) t
  | leaf {n : Nat} {t : TypeId} : t.index < s.size → t ≠ .any → t ≠ .error →
      (∀ members, s.node t ≠ .union members) → (∀ members, s.node t ≠ .intersection members) →
      (∀ o, s.node t ≠ .object o) → Definite s n t

namespace Definite

variable {s s' : Store} {n m : Nat} {t : TypeId}

theorem known (h : Definite s n t) : t.index < s.size := by
  cases h <;> assumption

theorem mono (h : Definite s n t) (hs : s.Extends s') : Definite s' n t := by
  have hsize : ∀ {i : Nat}, i < s.size → i < s'.size := fun h => Nat.lt_of_lt_of_le h hs.size_le
  induction h with
  | union hlt hn _ ih => exact .union (hsize hlt) ((hs.node_eq _ hlt).trans hn) ih
  | intersection hlt hn _ ih => exact .intersection (hsize hlt) ((hs.node_eq _ hlt).trans hn) ih
  | object hlt hn _ ih => exact .object (hsize hlt) ((hs.node_eq _ hlt).trans hn) ih
  | leaf hlt hany herror hu hi ho =>
      refine .leaf (hsize hlt) hany herror ?_ ?_ ?_ <;> rw [hs.node_eq _ hlt]
      · exact hu
      · exact hi
      · exact ho

theorem of_le (h : Definite s n t) (hle : n ≤ m) : Definite s m t := by
  induction h generalizing m with
  | union hlt hn _ ih => exact .union hlt hn fun c hc => ih c hc hle
  | intersection hlt hn _ ih => exact .intersection hlt hn fun c hc => ih c hc hle
  | object hlt hn _ ih =>
      obtain ⟨k, rfl⟩ : ∃ k, m = k + 1 := ⟨m - 1, by omega⟩
      exact .object hlt hn fun c hc => ih c hc (by omega)
  | leaf hlt hany herror hu hi ho => exact .leaf hlt hany herror hu hi ho

/-- Components have smaller ids, so the id bounds the nesting. -/
theorem of_index (hs : s.Formed) (h : Definite s n t) : Definite s (t.index + 1) t := by
  induction h with
  | union hlt hn _ ih =>
      refine .union hlt hn fun c hc => (ih c hc).of_le ?_
      have := hs.descends _ hlt c (by rw [hn]; exact hc)
      omega
  | intersection hlt hn _ ih =>
      refine .intersection hlt hn fun c hc => (ih c hc).of_le ?_
      have := hs.descends _ hlt c (by rw [hn]; exact hc)
      omega
  | object hlt hn _ ih =>
      refine .object hlt hn fun c hc => (ih c hc).of_le ?_
      have := hs.descends _ hlt c (by rw [hn]; exact hc)
      omega
  | leaf hlt hany herror hu hi ho => exact .leaf hlt hany herror hu hi ho

theorem ne_any (hs : s.Formed) (h : Definite s n t) : t ≠ .any := by
  rintro rfl
  have hnode : s.node .any = .intrinsic .any := hs.node_intrinsic .any
  cases h with
  | union _ hn _ => simp [hnode] at hn
  | intersection _ hn _ => simp [hnode] at hn
  | object _ hn _ => simp [hnode] at hn
  | leaf _ hany => exact hany rfl

theorem ne_error (hs : s.Formed) (h : Definite s n t) : t ≠ .error := by
  rintro rfl
  have hnode : s.node .error = .error := hs.node_fixed (i := 0) (by decide)
  cases h with
  | union _ hn _ => simp [hnode] at hn
  | intersection _ hn _ => simp [hnode] at hn
  | object _ hn _ => simp [hnode] at hn
  | leaf _ _ herror => exact herror rfl

theorem of_fixed (hs : s.Formed) (hfixed : t.isFixed) (hany : t ≠ .any) (herror : t ≠ .error) :
    Definite s n t := by
  obtain ⟨i⟩ := t
  have hi : i < TypeId.fixedCount := by simpa [TypeId.isFixed] using hfixed
  have hnode := hs.node_fixed hi
  refine .leaf (hs.known_of_isFixed hfixed) hany herror ?_ ?_ ?_ <;> rw [hnode] <;>
    have hi : i < 12 := hi <;> interval_cases i <;> simp [Node.fixed]

theorem of_mem_union {members : List TypeId} (h : Definite s n t)
    (hn : s.node t = .union members) : ∀ m ∈ members, Definite s n m := by
  cases h with
  | union _ hn' hm =>
      cases hn.symm.trans hn'
      exact hm
  | intersection _ hn' _ => cases hn.symm.trans hn'
  | object _ hn' _ => cases hn.symm.trans hn'
  | leaf _ _ _ hu _ _ => exact absurd hn (hu members)

theorem of_mem_intersection {members : List TypeId} (h : Definite s n t)
    (hn : s.node t = .intersection members) : ∀ m ∈ members, Definite s n m := by
  cases h with
  | union _ hn' _ => cases hn.symm.trans hn'
  | intersection _ hn' hm =>
      cases hn.symm.trans hn'
      exact hm
  | object _ hn' _ => cases hn.symm.trans hn'
  | leaf _ _ _ _ hi _ => exact absurd hn (hi members)

theorem of_mem_object {o : ObjectShape} (h : Definite s n t) (hn : s.node t = .object o) :
    ∃ k, n = k + 1 ∧ ∀ c ∈ (Node.object o).components, Definite s k c := by
  cases h with
  | union _ hn' _ => cases hn.symm.trans hn'
  | intersection _ hn' _ => cases hn.symm.trans hn'
  | object _ hn' hc =>
      cases hn.symm.trans hn'
      exact ⟨_, rfl, hc⟩
  | leaf _ _ _ _ _ ho => exact absurd hn (ho o)

end Definite

namespace Interpretation

variable {F : Store} {V : Type} (I : Interpretation F V) {t u : TypeId} {x : V}

theorem mem_union {members : List TypeId} (hn : F.node t = .union members) :
    x ∈ I.set t ↔ ∃ m ∈ members, x ∈ I.set m := by
  rw [I.set_union t members hn]
  rfl

theorem mem_intersection {members : List TypeId} (hn : F.node t = .intersection members) :
    x ∈ I.set t ↔ ∀ m ∈ members, x ∈ I.set m := by
  rw [I.set_intersection t members hn]
  rfl

theorem mem_object {o : ObjectShape} (hn : F.node t = .object o) :
    x ∈ I.set t ↔ x ∉ I.set .null ∧ x ∉ I.set .undefined ∧ HasShape I.set I.get x o := by
  rw [I.set_object t o hn]
  rfl

theorem mem_primitive {v : Literal} (hn : F.node t = .literal v) (hx : x ∈ I.set t) :
    x ∈ I.set v.primitive := by
  obtain ⟨y, hy, ht⟩ := I.set_literal t v hn
  rw [ht] at hx
  exact hx ▸ hy

/-- Two literals that share a value are one. -/
theorem eq_of_mem_literals {v w : Literal} (ht : F.node t = .literal v) (hu : F.node u = .literal w)
    (hxt : x ∈ I.set t) (hxu : x ∈ I.set u) : t = u := by
  obtain ⟨y, _, hty⟩ := I.set_literal t v ht
  obtain ⟨z, _, huz⟩ := I.set_literal u w hu
  refine I.literal_injective t u v w ht hu ?_
  rw [hty] at hxt
  rw [huz] at hxu
  rw [hty, huz, ← show x = y from hxt, ← show x = z from hxu]

end Interpretation

namespace Store

section meaning

variable {F s : Store} {V : Type} (I : Interpretation F V) {n : Nat} {ts : List TypeId} {x : V}

theorem definite_unionLeaves (hts : ∀ t ∈ ts, Definite s n t) :
    ∀ l ∈ TypeId.sortUnique s.numbers (ts.flatMap s.unionLeaves), Definite s n l :=
  forall_mem_flatLeaves (fun _ _ hu hn => hu.of_mem_union (Node.eq_union_of_members hn)) hts

theorem definite_intersectionLeaves (hts : ∀ t ∈ ts, Definite s n t) :
    ∀ l ∈ TypeId.sortUnique s.numbers (ts.flatMap s.intersectionLeaves), Definite s n l :=
  forall_mem_flatLeaves
    (fun _ _ hu hn => hu.of_mem_intersection (Node.eq_intersection_of_members hn)) hts

variable (hs : s.Formed) (hF : s.Extends F)

include hs hF

theorem exists_mem_unionLeaves (hts : ∀ t ∈ ts, t.index < s.size) :
    (∃ l ∈ TypeId.sortUnique s.numbers (ts.flatMap s.unionLeaves), x ∈ I.set l) ↔ ∃ t ∈ ts, x ∈ I.set t :=
  exists_mem_flatLeaves hs Node.unionMembers?_subset (fun u _ hu hn =>
    (I.mem_union ((hF.node_eq u hu).trans (Node.eq_union_of_members hn))).symm) hts

theorem forall_mem_intersectionLeaves (hts : ∀ t ∈ ts, t.index < s.size) :
    (∀ l ∈ TypeId.sortUnique s.numbers (ts.flatMap s.intersectionLeaves), x ∈ I.set l) ↔
      ∀ t ∈ ts, x ∈ I.set t := by
  -- a value that some member lacks
  have hleaves := exists_mem_flatLeaves (p := fun t => x ∉ I.set t) hs
    Node.intersectionMembers?_subset (fun u _ hu hn => by
      rw [I.mem_intersection ((hF.node_eq u hu).trans (Node.eq_intersection_of_members hn))]
      simp) hts
  have hforall := not_congr hleaves
  simp only [not_exists, not_and, not_not] at hforall
  exact hforall

theorem exists_mem_absorbLiterals (hts : ∀ t ∈ ts, t.index < s.size) :
    (∃ t ∈ s.absorbLiterals ts, x ∈ I.set t) ↔ ∃ t ∈ ts, x ∈ I.set t := by
  constructor
  · rintro ⟨t, ht, hx⟩
    rcases mem_of_mem_absorbLiterals ht with ht | ⟨rfl, htrue, hfalse⟩
    · exact ⟨t, ht, hx⟩
    · rw [I.set_boolean] at hx
      rcases hx with hx | hx
      · exact ⟨_, htrue, hx⟩
      · exact ⟨_, hfalse, hx⟩
  · rintro ⟨t, ht, hx⟩
    rcases mem_absorbLiterals hs ht with ht' | ⟨v, hn, hv⟩
    · exact ⟨t, ht', hx⟩
    · exact ⟨_, hv, I.mem_primitive ((hF.node_eq t (hts t ht)).trans hn) hx⟩

end meaning

end Store

namespace Normal

open Store

/-- The type of all values of a class. -/
def PrimitiveClass.typeId : PrimitiveClass → TypeId
  | .string => .string
  | .number => .number
  | .boolean => .boolean
  | .null => .null
  | .undefined => .undefined
  | .void => .void

variable {F s : Store} {V : Type} (I : Interpretation F V) {t : TypeId} {ts : List TypeId} {x : V}

/-- Classes that share a value are one, or `void` and `undefined`. -/
theorem PrimitiveClass.eq_or_void {c d : PrimitiveClass} (hc : x ∈ I.set c.typeId)
    (hd : x ∈ I.set d.typeId) :
    c = d ∨ (c = .void ∧ d = .undefined) ∨ (c = .undefined ∧ d = .void) := by
  have hdisjoint := I.disjoint
  simp only [List.pairwise_cons, List.mem_cons, List.not_mem_nil, or_false, forall_eq_or_imp,
    forall_eq, Set.disjoint_left] at hdisjoint
  obtain ⟨⟨h₁, h₂, h₃, h₄⟩, ⟨h₅, h₆, h₇⟩, ⟨h₈, h₉⟩, h₁₀, _⟩ := hdisjoint
  have hvoid := I.set_void
  cases c <;> cases d <;> simp only [PrimitiveClass.typeId, hvoid] at hc hd <;> grind

theorem forall_mem_filter {q : TypeId → Bool}
    (h : ∀ t ∈ ts, q t = false → (∀ u ∈ ts.filter q, x ∈ I.set u) → x ∈ I.set t) :
    (∀ t ∈ ts.filter q, x ∈ I.set t) ↔ ∀ t ∈ ts, x ∈ I.set t := by
  constructor
  · intro hx t ht
    cases hq : q t with
    | true => exact hx t (List.mem_filter.mpr ⟨ht, hq⟩)
    | false => exact h t ht hq hx
  · exact fun hx t ht => hx t (List.mem_filter.mp ht).1

/-- Reducing the members of an intersection drops none that matters; without a result no value is
in all of them. -/
def Reduced (x : V) (ts : List TypeId) : Option (List TypeId) → Prop
  | none => ¬∀ t ∈ ts, x ∈ I.set t
  | some us => us.Sublist ts ∧ ((∀ t ∈ us, x ∈ I.set t) ↔ ∀ t ∈ ts, x ∈ I.set t)

theorem Reduced.trans {us : List TypeId} {r : Option (List TypeId)} (h : Reduced I x ts (some us))
    (h' : Reduced I x us r) : Reduced I x ts r := by
  cases r with
  | none => exact fun hx => h' (h.2.mpr hx)
  | some _ => exact ⟨h'.1.trans h.1, h'.2.trans h.2⟩

theorem nodup_eraseDups {α : Type} [DecidableEq α] : ∀ l : List α, l.eraseDups.Nodup
  | [] => by simp
  | a :: l => by
      rw [List.eraseDups_cons, List.nodup_cons]
      exact ⟨by simp, nodup_eraseDups _⟩
termination_by l => l.length
decreasing_by
  have := List.length_filter_le (fun b => !b == a) l
  simp only [List.length_cons]
  omega

/-- More than one class, and not just `void` and `undefined`, leaves no value. -/
theorem not_shared_of_classes {classes : List PrimitiveClass} (hdistinct : classes.Nodup)
    (hlength : 1 < classes.length)
    (hpair : ¬(classes.length = 2 ∧ .void ∈ classes ∧ .undefined ∈ classes)) :
    ¬∀ c ∈ classes, x ∈ I.set c.typeId := by
  intro hx
  have hshared : ∀ c ∈ classes, ∀ d ∈ classes, c = d ∨ (c = .void ∧ d = .undefined) ∨
      (c = .undefined ∧ d = .void) := fun c hc d hd => PrimitiveClass.eq_or_void I (hx c hc) (hx d hd)
  match classes, hlength with
  | [c, d], _ =>
      have hcd := hshared c (by simp) d (by simp)
      simp only [List.nodup_cons, List.mem_singleton] at hdistinct
      rcases hcd with hcd | ⟨rfl, rfl⟩ | ⟨rfl, rfl⟩
      · exact hdistinct.1 hcd
      · exact hpair (by simp)
      · exact hpair (by simp)
  | c :: d :: e :: rest, _ =>
      have hcd := hshared c (by simp) d (by simp)
      have hce := hshared c (by simp) e (by simp)
      have hde := hshared d (by simp) e (by simp)
      simp only [List.nodup_cons, List.mem_cons, not_or] at hdistinct
      grind

section members

variable (hs : s.Formed) (hF : s.Extends F) (hts : ∀ t ∈ ts, t.index < s.size)

include hs hF

theorem mem_primitiveClass {c : PrimitiveClass} (ht : t.index < s.size)
    (hc : primitiveClass? s t = some c) (hx : x ∈ I.set t) : x ∈ I.set c.typeId := by
  have hF := hF.node_eq t ht
  unfold primitiveClass? at hc
  split at hc <;> cases hc <;> rename_i hn <;>
    first
      | exact I.mem_primitive (hF.trans hn) hx
      | rw [hs.eq_of_intrinsic ht hn] at hx
        exact hx

omit hs in
theorem not_nullish_of_objectLike (ht : t.index < s.size) (h : s.isObjectLike t) (hx : x ∈ I.set t) :
    x ∉ I.set .null ∧ x ∉ I.set .undefined := by
  have hF := hF.node_eq t ht
  unfold isObjectLike at h
  split at h
  · rename_i o hn
    exact ⟨((I.mem_object (hF.trans hn)).mp hx).1, ((I.mem_object (hF.trans hn)).mp hx).2.1⟩
  · rename_i c hn
    rw [I.set_array t c (hF.trans hn)] at hx
    exact I.array_subset _ hx
  · rename_i f hn
    rw [I.set_function t f (hF.trans hn)] at hx
    exact I.function_subset _ _ hx
  · cases h

omit hs in
theorem mem_emptyObject (ht : t.index < s.size) (h : s.isEmptyObject t)
    (hx : x ∉ I.set .null ∧ x ∉ I.set .undefined) : x ∈ I.set t := by
  unfold isEmptyObject objectShape? at h
  split at h
  · rename_i o hn
    obtain ⟨hfields, hindex⟩ : o.fields = [] ∧ o.stringIndex = none := by
      simpa [ObjectShape.isEmpty] using h
    rw [I.mem_object ((hF.node_eq t ht).trans hn)]
    refine ⟨hx.1, hx.2, ?_, ?_⟩
    · simp [hfields]
    · intro t ht
      simp [hindex] at ht
  · cases h

include hts

theorem reduced_keepLiteral (hunique : ts.Nodup) : Reduced I x ts (keepLiteral s ts) := by
  have hliteral : ∀ {t v}, t ∈ ts → s.literal? t = some v → F.node t = .literal v := by
    intro t v ht h
    rw [hF.node_eq t (hts t ht)]
    unfold literal? at h
    split at h
    · cases h
      assumption
    · cases h
  unfold keepLiteral
  split
  · exact ⟨.refl ts, Iff.rfl⟩
  · rename_i v hv
    obtain ⟨u, hu, huv⟩ := List.mem_filterMap.mp (hv ▸ List.mem_singleton_self v)
    refine ⟨List.filter_sublist, forall_mem_filter I fun t ht hq hx => ?_⟩
    have ht : t = v.primitive := by simpa using hq
    have hne : u ≠ v.primitive := by
      obtain ⟨k, -, hk⟩ := hs.node_primitive v
      rintro rfl
      rw [← hF.node_eq _ (hts _ hu), hliteral hu huv] at hk
      cases hk
    rw [ht]
    exact I.mem_primitive (hliteral hu huv) (hx u (List.mem_filter.mpr ⟨hu, by simpa using hne⟩))
  · rename_i hnil hone
    intro hx
    have hpairs : (ts.filterMap s.literal?).Pairwise fun _ _ => False := by
      rw [List.pairwise_filterMap]
      refine hunique.imp_of_mem fun {t u} ht hu hne v hv w hw => hne ?_
      exact I.eq_of_mem_literals (hliteral ht hv) (hliteral hu hw) (hx t ht) (hx u hu)
    match hl : ts.filterMap s.literal? with
    | [] => exact hnil hl
    | [v] => exact hone v hl
    | v :: w :: rest =>
        rw [hl] at hpairs
        exact (List.pairwise_cons.mp hpairs).1 w (by simp)

omit hs hF hts in
theorem not_object_of_class {c : PrimitiveClass} (hc : primitiveClass? s t = some c) :
    s.isEmptyObject t = false := by
  unfold primitiveClass? at hc
  unfold isEmptyObject objectShape?
  split at hc <;> simp_all

theorem reduced_emptyObjects {classes : List PrimitiveClass} (hempty : classes ≠ [])
    (hmem : ∀ c ∈ classes, ∃ t ∈ ts, primitiveClass? s t = some c)
    (hnull : ∀ c ∈ classes, c.isNullish = false) :
    Reduced I x ts (some (ts.filter (!s.isEmptyObject ·))) := by
  refine ⟨List.filter_sublist, forall_mem_filter I fun t ht hq hx => ?_⟩
  obtain ⟨c, hc⟩ := List.exists_mem_of_ne_nil classes hempty
  obtain ⟨u, hu, huc⟩ := hmem c hc
  have hxc : x ∈ I.set c.typeId := mem_primitiveClass I hs hF (hts u hu) huc
    (hx u (List.mem_filter.mpr ⟨hu, by simp [not_object_of_class huc]⟩))
  refine mem_emptyObject I hF (hts t ht) (by simpa using hq) ⟨fun h => ?_, fun h => ?_⟩
  · rcases PrimitiveClass.eq_or_void I (c := c) (d := .null) hxc h with rfl | ⟨_, h⟩ | ⟨_, h⟩
    · exact absurd (hnull _ hc) (by decide)
    · cases h
    · cases h
  · rcases PrimitiveClass.eq_or_void I (c := c) (d := .undefined) hxc h with rfl | ⟨rfl, _⟩ | ⟨_, h⟩
    · exact absurd (hnull _ hc) (by decide)
    · exact absurd (hnull _ hc) (by decide)
    · cases h

theorem reduced_reducePrimitives (hunique : ts.Nodup) :
    Reduced I x ts (reducePrimitives s ts) := by
  unfold reducePrimitives
  generalize hclasses : (ts.filterMap (primitiveClass? s)).eraseDups = classes
  have hdistinct : classes.Nodup := hclasses ▸ nodup_eraseDups _
  have hmem : ∀ c ∈ classes, ∃ t ∈ ts, primitiveClass? s t = some c := by
    intro c hc
    rw [← hclasses, List.mem_eraseDups, List.mem_filterMap] at hc
    exact hc
  have hshared : (∀ t ∈ ts, x ∈ I.set t) → ∀ c ∈ classes, x ∈ I.set c.typeId := by
    intro hx c hc
    obtain ⟨t, ht, hc⟩ := hmem c hc
    exact mem_primitiveClass I hs hF (hts t ht) hc (hx t ht)
  by_cases hempty : classes.isEmpty
  · simp only [hempty, if_true]
    exact ⟨.refl ts, Iff.rfl⟩
  simp only [hempty]
  by_cases hnull : ts.any s.isObjectLike && classes.any (·.isNullish)
  · simp only [hnull, if_true]
    intro hx
    simp only [Bool.and_eq_true, List.any_eq_true] at hnull
    obtain ⟨⟨t, ht, hobject⟩, c, hc, hnull⟩ := hnull
    have hxt := not_nullish_of_objectLike I hF (hts t ht) hobject (hx t ht)
    have hxc := hshared hx c hc
    cases c with
    | null => exact hxt.1 hxc
    | undefined => exact hxt.2 hxc
    | void => exact hxt.2 (I.set_void ▸ hxc)
    | _ => cases hnull
  simp only [hnull]
  generalize hrest : (if ts.any s.isObjectLike then ts.filter (!s.isEmptyObject ·) else ts) = rest
  have hreduced : Reduced I x ts (some rest) := by
    rw [← hrest]
    split
    · refine reduced_emptyObjects I hs hF hts (by simpa using hempty) hmem ?_
      simpa [‹ts.any s.isObjectLike = true›] using hnull
    · exact ⟨.refl ts, Iff.rfl⟩
  refine hreduced.trans I ?_
  have hrestKnown : ∀ t ∈ rest, t.index < s.size := fun t ht => hts t (hreduced.1.subset ht)
  by_cases hpair : classes.length = 2 && classes.contains .void && classes.contains .undefined
  · simp only [hpair, if_true]
    simp only [Bool.and_eq_true, List.contains_iff_mem] at hpair
    refine ⟨List.filter_sublist, forall_mem_filter I fun t ht hq hx => ?_⟩
    obtain ⟨u, hu, huc⟩ := hmem _ hpair.2
    have huRest : u ∈ rest := by
      rw [← hrest]
      split
      · exact List.mem_filter.mpr ⟨hu, by simp [not_object_of_class huc]⟩
      · exact hu
    have huVoid : u ≠ .void := by
      rintro rfl
      have hvoid : s.node .void = .intrinsic .void := hs.node_intrinsic .void
      simp [primitiveClass?, hvoid] at huc
    have hxu := mem_primitiveClass I hs hF (hts u hu) huc
      (hx u (List.mem_filter.mpr ⟨huRest, by simpa using huVoid⟩))
    have ht : t = .void := by simpa using hq
    rw [ht, I.set_void]
    exact hxu
  simp only [hpair]
  by_cases hlength : 1 < classes.length
  · simp only [hlength, if_true]
    refine fun hx => not_shared_of_classes I hdistinct hlength ?_ (hshared (hreduced.2.mp hx))
    simpa [and_assoc] using hpair
  simp only [hlength]
  exact reduced_keepLiteral I hs hF hrestKnown (hreduced.1.nodup hunique)

end members

theorem exists_mem_choices {p : TypeId → Prop} (unions : List (List TypeId)) (chosen : List TypeId) :
    (∃ ms ∈ choices chosen unions, ∀ m ∈ ms, p m) ↔
      (∀ m ∈ chosen, p m) ∧ ∀ members ∈ unions, ∃ m ∈ members, p m := by
  induction unions generalizing chosen with
  | nil => simp [choices]
  | cons members rest ih =>
      simp only [choices, List.mem_flatMap, List.forall_mem_cons]
      constructor
      · rintro ⟨ms, ⟨m, hm, hms⟩, hp⟩
        obtain ⟨hchosen, hrest⟩ := (ih _).mp ⟨ms, hms, hp⟩
        exact ⟨fun c hc => hchosen c (by simp [hc]), ⟨m, hm, hchosen m (by simp)⟩, hrest⟩
      · rintro ⟨hchosen, ⟨m, hm, hpm⟩, hrest⟩
        obtain ⟨ms, hms, hp⟩ := (ih (chosen ++ [m])).mpr ⟨by grind, hrest⟩
        exact ⟨ms, ⟨m, hm, hms⟩, hp⟩

theorem forall_mem_choices {p : TypeId → Prop} {unions : List (List TypeId)} {chosen : List TypeId}
    (hchosen : ∀ m ∈ chosen, p m) (hunions : ∀ members ∈ unions, ∀ m ∈ members, p m) :
    ∀ ms ∈ choices chosen unions, ∀ m ∈ ms, p m := by
  induction unions generalizing chosen with
  | nil => simpa [choices] using hchosen
  | cons members rest ih =>
      intro ms hms
      obtain ⟨m, hm, hms⟩ := List.mem_flatMap.mp hms
      refine ih ?_ (fun us hus => hunions us (by simp [hus])) ms hms
      intro c hc
      rcases List.mem_append.mp hc with hc | hc
      · exact hchosen c hc
      · rw [List.mem_singleton.mp hc]
        exact hunions members (by simp) m hm

end Normal

end TypeResolution
