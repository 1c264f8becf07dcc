import TypeResolution.Proofs.Narrowing.Tracing

/-!
Conditions on a value itself: its kind, its truth, whether it is `null` or `undefined`, whether it
is equal to a unit type's value. Narrowing by such a condition keeps the values that are on the side
of the branch, with three exceptions. The empty object type has values of every kind, but is narrowed
as if all were objects; `number` is narrowed as if its only falsy value were zero; and the error
type, which may stand for any type, is not taken to have `null` and `undefined`.
-/

namespace TypeResolution

open Store Replay

namespace Datum

/-- What `typeof` gives. -/
def kind : Datum → TypeofKind
  | .undefined => .undefined
  | .null | .list _ | .record _ => .object
  | .literal (.string _) => .string
  | .literal (.number _) => .number
  | .literal (.boolean _) => .boolean
  | .closure => .function

def isNullish : Datum → Bool
  | .undefined | .null => true
  | _ => false

def isTruthy : Datum → Bool
  | .undefined | .null => false
  | .literal v => !v.isFalsy
  | .list _ | .closure | .record _ => true

end Datum

/-- A condition on a value itself. -/
inductive ValueTest where
  | kind (kind : TypeofKind)
  | equals (value : TypeId)
  | nullish
  | truthy

namespace ValueTest

def guard : ValueTest → TypeGuard
  | .kind k => .typeof k
  | .equals value => .literalEquality value
  | .nullish => .nullishEquality
  | .truthy => .truthy

/-- Values are compared with unit types only. -/
def Proper (s : Store) : ValueTest → Prop
  | .equals value => Narrowing.isUnit s value
  | _ => True

def Passes (s : Store) (x : Datum) : ValueTest → Prop
  | .kind k => x.kind = k
  | .equals value => x ∈ s.values value
  | .nullish => x.isNullish
  | .truthy => x.isTruthy

/-- The value is none of those that narrowing a type with the member `m` leaves out of account. -/
def Sees (s : Store) (x : Datum) (m : TypeId) : ValueTest → Prop
  | .kind _ => s.isEmptyObject m → x.kind = .object
  | .equals _ => True
  | .nullish => m ≠ .error
  | .truthy => (s.isEmptyObject m → x.isTruthy) ∧
      (m = .number → x.isTruthy ∨ x = .literal (.number .zero))

end ValueTest

/-- The values of a member that are on the side of a branch and that narrowing takes account of. -/
def ValueTest.side (F : Store) (test : ValueTest) (branch : Branch) (m : TypeId) : Set Datum :=
  {x | x ∈ F.values m ∧ (test.Passes F x ↔ branch.isTrue) ∧ test.Sees F x m}

section members

variable {F : Store} {ls : List TypeId} {test : ValueTest} {m : TypeId} {x : Datum}

theorem isEmptyObject_iff : F.isEmptyObject m ↔ ∃ o, F.node m = .object o ∧ o.isEmpty := by
  unfold isEmptyObject objectShape?
  cases F.node m <;> simp

/-- A member that is empty is seen as another that is. -/
theorem ValueTest.sees_of_plain (herror : m ≠ .error) (hnumber : m ≠ .number)
    (hempty : F.isEmptyObject m → ∃ l, F.isEmptyObject l ∧ test.Sees F x l) : test.Sees F x m := by
  cases test with
  | kind k =>
      intro h
      obtain ⟨l, hl, hsees⟩ := hempty h
      exact hsees hl
  | equals value => trivial
  | nullish => exact herror
  | truthy =>
      refine ⟨fun h => ?_, fun h => absurd h hnumber⟩
      obtain ⟨l, hl, hsees⟩ := hempty h
      exact hsees.1 hl

variable (hF : F.Formed)

include hF

theorem ValueTest.sees_of_node {n : Node} (hn : F.node m = n)
    (hplain : n ≠ .error ∧ n ≠ .intrinsic .number)
    (hempty : ∀ o, n = .object o → o.isEmpty → ∃ l, F.isEmptyObject l ∧ test.Sees F x l) :
    test.Sees F x m := by
  refine sees_of_plain ?_ ?_ fun h => ?_
  · rintro rfl
    exact hplain.1 (hn.symm.trans (hF.node_fixed (i := 0) (by decide)))
  · rintro rfl
    exact hplain.2 (hn.symm.trans (hF.node_intrinsic .number))
  · obtain ⟨o, ho, hoempty⟩ := isEmptyObject_iff.mp h
    exact hempty o (hn.symm.trans ho) hoempty

/-- What is seen of the members of a type is seen of what they become. -/
theorem ValueTest.sees_of_comesFrom (h : ComesFrom F ls m) (hls : ∀ l ∈ ls, test.Sees F x l) :
    test.Sees F x m := by
  rcases h with rfl | rfl | ⟨l, hl, h⟩
  · exact sees_of_node hF (hF.node_intrinsic .never) (by simp) (by simp)
  · exact sees_of_node hF (hF.node_intrinsic .boolean) (by simp) (by simp)
  cases h with
  | same h => exact h ▸ hls l hl
  | function _ hg => exact sees_of_node hF hg (by simp) (by simp)
  | array _ hd => exact sees_of_node hF hd (by simp) (by simp)
  | @object o p ho hp hempty =>
      refine sees_of_node hF hp (by simp) fun _ hop hpempty => ?_
      cases hop
      exact ⟨l, isEmptyObject_iff.mpr ⟨o, ho, hempty ▸ hpempty⟩, hls l hl⟩

namespace Narrowing

/-- What is said of whether a condition holds is true of a value. -/
structure Match.Tells (found : Match) (p : Prop) : Prop where
  always : found = .always → p
  never : found = .never → ¬p

omit hF in
theorem Match.tells_always {p : Prop} (h : p) : Match.always.Tells p where
  always _ := h
  never hne := by cases hne

omit hF in
theorem Match.tells_never {p : Prop} (h : ¬p) : Match.never.Tells p where
  always hne := by cases hne
  never _ := h

omit hF in
theorem Match.tells_sometimes {p : Prop} : Match.sometimes.Tells p where
  always hne := by cases hne
  never hne := by cases hne

omit hF in
theorem Match.Tells.keeps {found : Match} {p : Prop} {branch : Branch} (h : found.Tells p)
    (hside : p ↔ branch.isTrue) : found.keeps branch := by
  cases found with
  | always => exact hside.mp (h.always rfl)
  | never =>
      have hfalse : ¬branch.isTrue := fun hb => h.never rfl (hside.mpr hb)
      simpa [Match.keeps] using hfalse
  | sometimes => rfl

theorem kind_of_kindOf {found : TypeofKind} (hx : x ∈ F.values m)
    (hfound : kindOf? (F.node m) = some found) (hsees : (ValueTest.kind found).Sees F x m) :
    x.kind = found := by
  rw [hF.values_eq] at hx
  cases hn : F.node m with
  | intrinsic i =>
      rw [hn] at hx hfound
      cases i with
      | string | number | boolean =>
          cases hfound
          obtain ⟨_, rfl⟩ := hx
          rfl
      | undefined | void | null =>
          cases hfound
          obtain rfl := hx
          rfl
      | any | unknown | never => cases hfound
  | literal v =>
      rw [hn] at hx hfound
      obtain rfl := hx
      cases v <;> cases hfound <;> rfl
  | object o =>
      rw [hn] at hx hfound
      cases hfound
      rcases hx.2 with hempty | hrecord
      · exact hsees (isEmptyObject_iff.mpr ⟨o, hn, hempty⟩)
      · cases x <;> simp [Datum.isRecord] at hrecord
        rfl
  | array c =>
      rw [hn] at hx hfound
      cases hfound
      obtain ⟨values, rfl, -⟩ := hx
      rfl
  | function f =>
      rw [hn] at hx hfound
      cases hfound
      obtain rfl := hx
      rfl
  | template _ | stringMap _ _ =>
      rw [hn] at hx
      exact hx.elim
  | _ =>
      rw [hn] at hfound
      cases hfound

theorem typeofMatch_tells {k : TypeofKind} (hx : x ∈ F.values m)
    (hsees : (ValueTest.kind k).Sees F x m) : (typeofMatch F k m).Tells (x.kind = k) := by
  cases hkind : kindOf? (F.node m) with
  | none =>
      rw [hF.values_eq] at hx
      rw [typeofMatch_of_not_kindOf hkind fun info hn => ?_]
      · exact Match.tells_sometimes
      · rw [hn] at hx
        exact hx.elim
  | some found =>
      have hfound : x.kind = found := kind_of_kindOf hF hx hkind hsees
      rw [typeofMatch_of_kindOf hkind]
      split
      · rename_i hk
        exact Match.tells_always (hfound.trans hk)
      · rename_i hk
        exact Match.tells_never fun h => hk (hfound.symm.trans h)

theorem truthiness_tells (hx : x ∈ F.values m) (hsees : ValueTest.truthy.Sees F x m) :
    (truthiness F m).Tells x.isTruthy := by
  rw [hF.values_eq] at hx
  unfold truthiness
  cases hn : F.node m with
  | intrinsic i =>
      rw [hn] at hx
      cases i with
      | never => exact hx.elim
      | null | undefined | void =>
          obtain rfl := hx
          exact Match.tells_never (by simp [Datum.isTruthy])
      | _ => exact Match.tells_sometimes
  | literal v =>
      rw [hn] at hx
      obtain rfl := hx
      dsimp only
      split
      · rename_i hfalsy
        exact Match.tells_never (by simp [Datum.isTruthy, hfalsy])
      · rename_i htrue
        exact Match.tells_always (by simpa [Datum.isTruthy] using htrue)
  | object o =>
      rw [hn] at hx
      refine Match.tells_always ?_
      rcases hx.2 with hempty | hrecord
      · exact hsees.1 (isEmptyObject_iff.mpr ⟨o, hn, hempty⟩)
      · cases x <;> simp [Datum.isRecord] at hrecord
        rfl
  | array c =>
      rw [hn] at hx
      obtain ⟨values, rfl, -⟩ := hx
      exact Match.tells_always rfl
  | function f =>
      rw [hn] at hx
      obtain rfl := hx
      exact Match.tells_always rfl
  | _ => exact Match.tells_sometimes

theorem isNullish_of_mem (hm : F.Concrete m) (hunion : F.unionMembers? m = none)
    (htop : m ≠ .error ∧ m.isAnyOrUnknown = false) (hx : x ∈ F.values m) :
    x.isNullish = m.isNullish := by
  have hconcrete := hm.node
  have hapart : (∀ i, F.node m ≠ .intrinsic i) → m.isNullish = false := by
    intro h
    have hnode : ∀ i : Intrinsic, m ≠ i.typeId := by
      rintro i rfl
      exact h i (hF.node_intrinsic i)
    have hnull : m ≠ .null := hnode .null
    have hundefined : m ≠ .undefined := hnode .undefined
    have hvoid : m ≠ .void := hnode .void
    simp [TypeId.isNullish, hnull, hundefined, hvoid]
  rw [hF.values_eq] at hx
  cases hn : F.node m with
  | error =>
      have herror : F.node .error = .error := hF.node_fixed (i := 0) (by decide)
      have hm : m = .error :=
        hF.eq_of_node_eq hm.known (hF.known_of_isFixed rfl) (hn.trans herror.symm)
      exact absurd hm htop.1
  | intrinsic i =>
      rw [hn] at hx
      obtain rfl := hF.eq_of_intrinsic hm.known hn
      cases i with
      | any | unknown => cases htop.2
      | never => exact hx.elim
      | undefined | void | null =>
          obtain rfl := hx
          rfl
      | string | number | boolean =>
          obtain ⟨_, rfl⟩ := hx
          rfl
  | literal v =>
      rw [hn] at hx
      obtain rfl := hx
      exact (hapart fun i => by simp [hn]).symm
  | object o =>
      rw [hn] at hx
      rw [hapart fun i => by simp [hn]]
      have hpresent : x ∈ Datum.present := hx.1.1
      cases x <;> first | rfl | simp [Datum.present] at hpresent
  | array c =>
      rw [hn] at hx
      obtain ⟨values, rfl, -⟩ := hx
      exact (hapart fun i => by simp [hn]).symm
  | function f =>
      rw [hn] at hx
      obtain rfl := hx
      exact (hapart fun i => by simp [hn]).symm
  | union ms =>
      exact absurd hn (unionMembers?_eq_none_iff.mp hunion _)
  | _ =>
      rw [hn] at hconcrete
      cases hconcrete

end Narrowing

end members

/-- A type that has, in the later store `F`, the values in `S`. -/
structure Covers (F s : Store) (S : Set Datum) (r : TypeId) : Prop where
  known : r.index < s.size
  values : s.Extends F → S ⊆ F.values r

namespace Covers

variable {F s s' : Store} {S S' : Set Datum} {r : TypeId}

theorem mono (h : Covers F s S r) (hs : s.Extends s') : Covers F s' S r :=
  ⟨Nat.lt_of_lt_of_le h.known hs.size_le, fun hsF => h.values (hs.trans hsF)⟩

theorem of_subset (h : Covers F s S r) (hsub : s.Extends F → S' ⊆ S) : Covers F s S' r :=
  ⟨h.known, fun hsF => (hsub hsF).trans (h.values hsF)⟩

theorem self (hr : r.index < s.size) : Covers F s (F.values r) r := ⟨hr, fun _ => subset_rfl⟩

end Covers

section unions

variable {F s : Store} {ms us : List TypeId} {l : TypeId} {x : Datum} (hF : F.Formed)

include hF

/-- What absorbs a type has its values. -/
theorem Absorbs.exists_mem_values (h : Absorbs s ms l) (hsF : s.Extends F) (hx : x ∈ F.values l) :
    ∃ m ∈ ms, x ∈ F.values m := by
  cases h with
  | member h => exact ⟨l, h, hx⟩
  | never h =>
      subst h
      exact ((mem_values_intrinsic hF .never).mp hx).elim
  | literal hv h =>
      have hnode := hsF.node_eq l (known_of_literal hv)
      exact ⟨_, h, mem_values_primitive hF (hnode.trans hv) hx⟩
  | boolean h htrue hfalse =>
      subst h
      obtain ⟨b, rfl⟩ := (mem_values_intrinsic hF .boolean).mp hx
      cases b with
      | true => exact ⟨_, htrue, (mem_values_literal hF (hF.node_ofBool true)).mpr rfl⟩
      | false => exact ⟨_, hfalse, (mem_values_literal hF (hF.node_ofBool false)).mpr rfl⟩
  | error h => exact ⟨_, h, mem_values_error hF⟩
  | any h => exact ⟨_, h, (mem_values_intrinsic hF .any).mpr trivial⟩
  | unknown h => exact ⟨_, h, (mem_values_intrinsic hF .unknown).mpr trivial⟩

/-- A union has the values of the types that are united. -/
theorem building_covers {α : Type} {S : α → Set Datum} {xs : List α}
    (h : List.Forall₂ (fun a u => Covers F s (S a) u) xs us) :
    building.Holds s (Build.union us) (Covers F · {x | ∃ a ∈ xs, x ∈ S a}) := by
  refine building.formed fun hs => ?_
  have hknown : ∀ u ∈ us, u.index < s.size := forall_right_of_forall₂ h fun _ _ hu => hu.known
  refine building.mono (building_absorbs hknown) ?_
  rintro s' r hext hs' ⟨hr, hforth, -⟩
  refine ⟨hr, fun hsF x hx => ?_⟩
  have hsF₀ := hext.trans hsF
  obtain ⟨u, hu, hxu⟩ := exists_of_forall₂ (q := (x ∈ F.values ·)) h
    (fun _ _ hcovers hx => hcovers.values hsF₀ hx) hx
  obtain ⟨l, hl, hxl⟩ := (exists_mem_unionLeaves_values hF
    (Nat.lt_of_lt_of_le (hknown u hu) hsF₀.size_le)).mpr hxu
  rw [unionLeaves_eq hsF₀ hs (hknown u hu)] at hl
  obtain ⟨m, hm, hxm⟩ :=
    (hforth l (List.mem_flatMap.mpr ⟨u, hu, hl⟩)).exists_mem_values hF hsF hxl
  rw [← unionLeaves_eq hsF hs' hr] at hm
  exact (exists_mem_unionLeaves_values hF (Nat.lt_of_lt_of_le hr hsF.size_le)).mp ⟨m, hm, hxm⟩

theorem building_covers_values (hus : ∀ u ∈ us, u.index < s.size) :
    building.Holds s (Build.union us) (Covers F · {x | ∃ u ∈ us, x ∈ F.values u}) :=
  building_covers hF (List.forall₂_same.mpr fun u hu => .self (hus u hu))

end unions

namespace Narrowing

section pieces

variable {F s : Store} {branch : Branch} {test : ValueTest} {m : TypeId} (hF : F.Formed)

theorem covers_side (hm : m.index < s.size) : Covers F s (test.side F branch m) m :=
  (Covers.self hm).of_subset fun _ _ hx => hx.1

include hF

theorem mem_values_of_kind {k : TypeofKind} {p : TypeId} {x : Datum} (hp : k.primitive? = some p)
    (hx : x.kind = k) : x ∈ F.values p := by
  subst hx
  cases x with
  | undefined =>
      cases hp
      exact (mem_values_intrinsic hF .undefined).mpr rfl
  | literal v =>
      cases v with
      | string text =>
          cases hp
          exact (mem_values_intrinsic hF .string).mpr ⟨text, rfl⟩
      | number n =>
          cases hp
          exact (mem_values_intrinsic hF .number).mpr ⟨n, rfl⟩
      | boolean b =>
          cases hp
          exact (mem_values_intrinsic hF .boolean).mpr ⟨b, rfl⟩
  | null | list _ | closure | record _ => cases hp

theorem building_rawIntersection_covers {ts : List TypeId} (hts : ∀ t ∈ ts, t.index < s.size) :
    building.Holds s (Build.rawIntersection ts) (Covers F · {x | ∀ t ∈ ts, x ∈ F.values t}) := by
  have hmem : ∀ t, t ∈ TypeId.sortUnique s.numbers ts ↔ t ∈ ts := fun t => TypeId.mem_sortUnique
  refine building_members ?_
  generalize TypeId.sortUnique s.numbers ts = us at hmem
  unfold Build.ofMembers
  split
  · refine building.formed fun hs => building.pure ⟨hs.known_of_isFixed rfl, fun _ x _ => ?_⟩
    exact (mem_values_intrinsic hF .unknown).mpr trivial
  · rename_i t
    have ht : t ∈ ts := (hmem t).mp (by simp)
    exact building.pure ⟨hts t ht, fun _ x hx => hx t ht⟩
  · refine building.mono (building_node (fun c hc => hts c ((hmem c).mp hc)) (by simp)) ?_
    rintro s' r _ _ ⟨hr, hn⟩
    refine ⟨hr, fun hsF x hx => ?_⟩
    rw [hF.values_eq, hsF.node_eq r hr, hn]
    exact fun t ht => hx t ((hmem t).mp ht)

theorem building_cutToKind_covers {k : TypeofKind} (hm : m.index < s.size) :
    building.Holds s (cutToKind k m) (Covers F · {x | x ∈ F.values m ∧ x.kind = k}) := by
  unfold cutToKind
  cases hp : k.primitive? with
  | none => exact building.pure ((Covers.self hm).of_subset fun _ _ hx => hx.1)
  | some p =>
      refine building.formed fun hs => ?_
      have hp' : p.index < s.size := by
        cases k <;> cases hp <;> exact hs.known_of_isFixed rfl
      refine building.mono (building_rawIntersection_covers hF (by simp [hm, hp'])) ?_
      refine fun s' r _ _ hr => hr.of_subset fun _ x ⟨hx, hkind⟩ t ht => ?_
      rcases List.mem_pair.mp ht with rfl | rfl
      · exact hx
      · exact mem_values_of_kind hF hp hkind

/-- What `any` and `unknown` become has all values of the kind. -/
theorem building_ofKind_covers {k : TypeofKind} (hm : m.index < s.size) (htop : m.isAnyOrUnknown) :
    building.Holds s (ofKind k m) (Covers F · {x | x.kind = k}) := by
  refine building.formed fun hs => ?_
  unfold ofKind
  cases hp : k.primitive? with
  | some p =>
      have hp' : p.index < s.size := by
        cases k <;> cases hp <;> exact hs.known_of_isFixed rfl
      exact building.pure ⟨hp', fun _ x hx => mem_values_of_kind hF hp hx⟩
  | none =>
      dsimp only
      split
      · rename_i hk
        refine building.bind (building_shape (o := ⟨[], none⟩) (by simp [Node.components])) ?_
        rintro s₁ u h₁ hs₁ ⟨hu, p, hn, hperm, hindex⟩
        have hknown : ∀ t ∈ [u, .null], t.index < s₁.size := by
          simp [hu.known, hs₁.known_of_isFixed (t := .null) rfl]
        refine building.mono (building_covers_values hF hknown) fun s₂ r h₂ _ hr =>
          hr.of_subset fun hsF x hx => ?_
        have hnF := ((h₂.trans hsF).node_eq u hu.known).trans hn
        have hempty : p.fields = [] := List.perm_nil.mp hperm
        have hall : x ∈ Datum.present → x ∈ F.values u := fun hpresent => by
          rw [mem_values_object hF hnF]
          exact ⟨⟨hpresent, by simp [hempty], by simp [HasIndex, hindex]⟩,
            .inl (by simp [ObjectShape.isEmpty, hempty, hindex])⟩
        have hkind : x.kind = .object := hx.trans hk
        cases x with
        | undefined | closure => cases hkind
        | null => exact ⟨.null, by simp, (mem_values_intrinsic hF .null).mpr rfl⟩
        | literal v => cases v <;> cases hkind
        | list _ | record _ => exact ⟨u, by simp, hall (by simp [Datum.present])⟩
      · refine building.pure ⟨hm, fun _ x _ => ?_⟩
        have htop : m = .any ∨ m = .unknown := by simpa [TypeId.isAnyOrUnknown] using htop
        rcases htop with rfl | rfl
        · exact (mem_values_intrinsic hF .any).mpr trivial
        · exact (mem_values_intrinsic hF .unknown).mpr trivial

theorem building_literal_covers (v : Literal) :
    building.Holds s (Build.intern (.literal v)) (Covers F · {.literal v}) := by
  refine building.mono (building_node (by simp [Node.components]) (by simp)) ?_
  rintro s' r _ _ ⟨hr, hn⟩
  refine ⟨hr, fun hsF x hx => ?_⟩
  rw [mem_values_literal hF ((hsF.node_eq r hr).trans hn)]
  exact hx

/-- The part of a member that is told to be truthy, or falsy, has all values that are. -/
theorem building_cutToTruth_covers (hm : m.index < s.size) :
    building.Holds s (cutToTruth branch m) (Covers F · (ValueTest.truthy.side F branch m)) := by
  refine building.formed fun hs => ?_
  have hhalf : m = .boolean →
      Covers F s (ValueTest.truthy.side F branch m) (.ofBool branch.isTrue) := by
    rintro rfl
    refine ⟨hs.known_of_isFixed (by cases branch <;> rfl), fun _ x ⟨hx, hside, _⟩ => ?_⟩
    obtain ⟨b, rfl⟩ := (mem_values_intrinsic hF .boolean).mp hx
    rw [mem_values_literal hF (hF.node_ofBool _)]
    have hb : b = branch.isTrue := by
      rw [Bool.eq_iff_iff, ← hside]
      simp [ValueTest.Passes, Datum.isTruthy, Literal.isFalsy]
    rw [hb]
  have hfalsy : branch = .whenFalse →
      ∀ x ∈ ValueTest.truthy.side F branch m, x.isTruthy = false := by
    rintro rfl x ⟨_, hside, _⟩
    have hfalse : ¬x.isTruthy := fun h => absurd (hside.mp h) (by decide)
    simpa using hfalse
  unfold cutToTruth
  cases branch with
  | whenTrue =>
      rw [if_pos (by decide)]
      split
      · exact building.pure (hhalf ‹_›)
      · exact building.pure (covers_side hm)
  | whenFalse =>
      have hfalsy := hfalsy rfl
      rw [if_neg (by decide)]
      split
      · rename_i hstring
        subst hstring
        refine building.mono (building_literal_covers hF (.string "")) fun s' r _ _ hr =>
          hr.of_subset fun _ x hx => ?_
        obtain ⟨text, rfl⟩ := (mem_values_intrinsic hF .string).mp hx.1
        have hempty : text = "" := by
          simpa [Datum.isTruthy, Literal.isFalsy] using hfalsy _ hx
        rw [hempty]
        rfl
      split
      · rename_i hnumber
        refine building.mono (building_literal_covers hF (.number Number.zero.canonical))
          fun s' r _ _ hr => hr.of_subset fun _ x hx => ?_
        exact (hx.2.2.2 hnumber).resolve_left (by simp [hfalsy x hx])
      split
      · exact building.pure (hhalf ‹_›)
      · exact building.pure (covers_side hm)

end pieces

section conditions

variable {F s : Store} {r m : TypeId} {branch : Branch} {test : ValueTest} (hF : F.Formed)
  (hr : s.Concrete r)

/-- What is on the side of the branch in one of the members of a type. -/
def memberSides (F s : Store) (test : ValueTest) (branch : Branch) (r : TypeId) : Set Datum :=
  {x | ∃ m ∈ s.unionMembers r, x ∈ test.side F branch m}

include hr

theorem concrete_of_mem_unionMembers (hflat : s.IsFlat r) (hm : m ∈ s.unionMembers r) :
    s.Concrete m :=
  hr.of_mem_unionLeaves (hflat.mem_unionLeaves ▸ hm)

include hF

theorem covers_memberSides (hflat : s.IsFlat r) :
    Covers F s (memberSides F s test branch r) r := by
  refine ⟨hr.known, fun hsF x ⟨m, hm, hx, _⟩ => ?_⟩
  refine (exists_mem_unionLeaves_values hF (Nat.lt_of_lt_of_le hr.known hsF.size_le)).mp ⟨m, ?_, hx⟩
  rw [hr.unionLeaves_eq hsF, hflat.mem_unionLeaves]
  exact hm

omit hr in
/-- Treating the members one by one keeps what the judgement and the treatment keep of each. -/
theorem building_judged_covers {judge : TypeId → Match} {step : TypeId × Match → Build TypeId}
    (hjudge : s.Extends F → ∀ m ∈ s.unionMembers r, ∀ x ∈ test.side F branch m,
      (judge m).keeps branch)
    (hstep : ∀ m ∈ s.unionMembers r, ∀ s₁, s.Extends s₁ →
      building.Holds s₁ (step (m, judge m)) (Covers F · (test.side F branch m))) :
    building.Holds s
      (do
        let narrowed ← (((s.unionMembers r).map fun m => (m, judge m)).filter
          (·.2.keeps branch)).mapM step
        Build.union narrowed : Build TypeId)
      (Covers F · (memberSides F s test branch r)) := by
  refine building_sift (R := fun s' m u => Covers F s' (test.side F branch m) u)
    (fun hext h => h.mono hext) (fun m hm _ s₁ h₁ _ => hstep m hm s₁ h₁) fun s₁ us h₁ hus => ?_
  refine building.mono (building_covers hF hus) fun s₂ u h₂ _ hu => hu.of_subset fun hsF x hx => ?_
  obtain ⟨m, hm, hx⟩ := hx
  exact ⟨m, List.mem_filter.mpr ⟨hm, hjudge ((h₁.trans h₂).trans hsF) m hm x hx⟩, hx⟩

theorem building_byTypeof_covers {k : TypeofKind} (hflat : s.IsFlat r) :
    building.Holds s (byTypeof k branch r) (Covers F · (memberSides F s (.kind k) branch r)) := by
  have hmember : ∀ m ∈ s.unionMembers r, s.Concrete m := fun m hm =>
    concrete_of_mem_unionMembers hr hflat hm
  unfold byTypeof
  split
  · rename_i htop
    cases branch with
    | whenTrue =>
        exact building.mono (building_ofKind_covers hF hr.known htop) fun _ _ _ _ h =>
          h.of_subset fun _ x ⟨m, _, hx⟩ => hx.2.1.mpr rfl
    | whenFalse => exact building.pure (covers_memberSides hF hr hflat)
  · refine building_get (building_judged_covers hF (fun hsF m hm x hx => ?_)
      fun m hm s₁ h₁ => ?_)
    · have hclosed : s.Closed AnyName m := (hmember m hm).closed
      have hfound := typeofMatch_tells (k := k) hF hx.1 hx.2.2
      rw [typeofMatch, typeofMatchAt_eq hsF hclosed] at hfound
      exact hfound.keeps hx.2.1
    · have hknown := ((hmember m hm).mono h₁).known
      dsimp only
      split
      · rename_i hcut
        have hbranch : branch.isTrue := (Bool.and_eq_true_iff.mp hcut).1
        exact building.mono (building_cutToKind_covers hF hknown) fun _ _ _ _ h =>
          h.of_subset fun _ x hx => ⟨hx.1, hx.2.1.mpr hbranch⟩
      · exact building.pure (covers_side hknown)

theorem building_byTruth_covers (hflat : s.IsFlat r) :
    building.Holds s (byTruth branch r) (Covers F · (memberSides F s .truthy branch r)) := by
  have hmember : ∀ m ∈ s.unionMembers r, s.Concrete m := fun m hm =>
    concrete_of_mem_unionMembers hr hflat hm
  refine building_get (building_judged_covers hF (fun hsF m hm x hx => ?_) fun m hm s₁ h₁ => ?_)
  · have hclosed : s.Closed AnyName m := (hmember m hm).closed
    have hfound := truthiness_tells hF hx.1 hx.2.2
    rw [truthiness_eq hsF hclosed] at hfound
    exact hfound.keeps hx.2.1
  · have hknown := ((hmember m hm).mono h₁).known
    dsimp only
    split
    · exact building_cutToTruth_covers hF hknown
    · exact building.pure (covers_side hknown)

theorem building_byNullish_covers (hform : InUnionForm s r) :
    building.Holds s (byNullish branch r) (Covers F · (memberSides F s .nullish branch r)) := by
  have hflat := hform.isFlat
  have hmember : ∀ m ∈ s.unionMembers r, s.Concrete m := fun m hm =>
    concrete_of_mem_unionMembers hr hflat hm
  unfold byNullish
  split
  · cases branch with
    | whenTrue =>
        refine building.formed fun hs => ?_
        have hknown : ∀ t ∈ [TypeId.null, .undefined], t.index < s.size := fun t ht =>
          hs.known_of_isFixed (by revert t; decide)
        refine building.mono (building_covers_values hF hknown) fun _ _ _ _ h =>
          h.of_subset fun _ x ⟨m, _, hx⟩ => ?_
        have hnullish : x.isNullish := hx.2.1.mpr rfl
        cases x with
        | null => exact ⟨.null, by simp, (mem_values_intrinsic hF .null).mpr rfl⟩
        | undefined => exact ⟨.undefined, by simp, (mem_values_intrinsic hF .undefined).mpr rfl⟩
        | literal _ | list _ | closure | record _ => cases hnullish
    | whenFalse => exact building.pure (covers_memberSides hF hr hflat)
  · rename_i htop
    refine building_get ?_
    refine building.mono (building_covers_values hF fun u hu =>
      (hmember u (List.mem_filter.mp hu).1).known) fun s' u h _ hu => hu.of_subset ?_
    rintro hsF x ⟨m, hm, hx, hside, herror⟩
    have hsF := h.trans hsF
    have hconcrete := (hmember m hm).mono hsF
    have hunion : F.unionMembers? m = none := by
      rw [unionMembers?, hsF.node_eq m (hmember m hm).known]
      exact hflat m hm
    have hplain : m.isAnyOrUnknown = false := by
      by_contra h
      have hmtop : m.isAnyOrUnknown := by simpa using h
      have hany : m = .any ∨ m = .unknown := by simpa [TypeId.isAnyOrUnknown] using hmtop
      have hleaf : m ∈ s.unionLeaves r := hflat.mem_unionLeaves ▸ hm
      have hrm : r = m := hform.eq_of_mem_leaves hleaf (by tauto)
      exact htop (hrm ▸ hmtop)
    refine ⟨m, List.mem_filter.mpr ⟨hm, decide_eq_true ?_⟩, hx⟩
    rw [← isNullish_of_mem hF hconcrete hunion ⟨herror, hplain⟩ hx]
    exact Bool.eq_iff_iff.mpr hside

omit hr in
/-- What is left of a member that is not equal to the literal has all values that are not. -/
theorem exists_unlike {c : TypeId} {x : Datum} (hx : x ∈ F.values m) (hne : x ∉ F.values c) :
    ∃ u, unlike c m = some u ∧ x ∈ F.values u := by
  have hother : ∀ b : Bool, m = .boolean → c = .ofBool b → x ∈ F.values (.ofBool !b) := by
    rintro b rfl rfl
    obtain ⟨b', rfl⟩ := (mem_values_intrinsic hF .boolean).mp hx
    rw [mem_values_literal hF (hF.node_ofBool b)] at hne
    rw [mem_values_literal hF (hF.node_ofBool !b)]
    have hb : b' = !b := by
      cases b <;> cases b' <;> simp at hne ⊢
    rw [hb]
  unfold unlike
  split
  · rename_i hmc
    exact absurd (hmc ▸ hx) hne
  split
  · rename_i hboth
    have hboth : m = .boolean ∧ c = .trueLiteral := by simpa using hboth
    exact ⟨_, rfl, hother true hboth.1 hboth.2⟩
  split
  · rename_i hboth
    have hboth : m = .boolean ∧ c = .falseLiteral := by simpa using hboth
    exact ⟨_, rfl, hother false hboth.1 hboth.2⟩
  · exact ⟨m, rfl, hx⟩

omit hF hr in
theorem known_of_unlike {c u : TypeId} (hs : s.Formed) (hm : m.index < s.size)
    (h : unlike c m = some u) : u.index < s.size := by
  unfold unlike at h
  split_ifs at h <;> cases h
  · exact hs.known_of_isFixed rfl
  · exact hs.known_of_isFixed rfl
  · exact hm

/-- The members that have the value of the literal are found. -/
theorem reporting_sharing {setting : Setting} {c : TypeId} (ho : setting.options.Positive)
    (hc : isUnit s c) (hflat : s.IsFlat r) :
    reporting.Holds s
      ((s.unionMembers r).filterM fun m => do
        if m = c then return true else isAssignable setting c m)
      fun s' kept => s'.Extends F → ∀ m ∈ s.unionMembers r,
        ∀ x ∈ F.values m, x ∈ F.values c → m ∈ kept := by
  refine reporting.formed fun hs => ?_
  refine reporting.mono (reporting_filterM (Q := fun s' m found => s'.Extends F →
    ∀ x ∈ F.values m, x ∈ F.values c → found = true) ?_ ?_) ?_
  · exact fun h hQ hF => hQ (h.trans hF)
  · intro m hm s₁ h₁
    refine reporting.formed fun hs₁ => ?_
    have hm₀ := concrete_of_mem_unionMembers hr hflat hm
    have hm₁ := hm₀.mono h₁
    have hc₁ := isUnit_mono hs h₁ hc
    split
    · exact reporting.pure fun _ _ _ _ => rfl
    · rename_i hne
      by_cases hshared : s₁.Extends F ∧ ∃ x ∈ F.values m, x ∈ F.values c
      · obtain ⟨hsF, x, hxm, hxc⟩ := hshared
        have hunion : s₁.unionMembers? m = none := by
          rw [unionMembers?, h₁.node_eq m hm₀.known]
          exact hflat m hm
        have hsucceeds := (succeeds_of_isUnit hs₁ hF hsF hm₁ hunion hc₁ hxc hxm).resolve_left
          fun h => hne h.symm
        exact reporting.mono
          (reporting_isAssignable_of_succeeds ho (concrete_of_isUnit hs₁ hc₁) hm₁ hsucceeds)
          fun _ _ _ _ hfound _ _ _ _ => hfound
      · refine reporting.mono (reporting_isAssignable (concrete_of_isUnit hs₁ hc₁) hm₁) ?_
        exact fun s₂ found h₂ _ _ hsF x hxm hxc => absurd ⟨h₂.trans hsF, x, hxm, hxc⟩ hshared
  · rintro s' kept _ _ ⟨-, hall⟩ hsF m hm x hxm hxc
    obtain ⟨found, hfound, hkept⟩ := hall m hm
    exact hkept (hfound hsF x hxm hxc)

theorem reporting_byLiteral_covers {setting : Setting} {c : TypeId}
    (ho : setting.options.Positive) (hc : isUnit s c) (hflat : s.IsFlat r) :
    reporting.Holds s (byLiteral setting c branch r)
      (Covers F · (memberSides F s (.equals c) branch r)) := by
  refine reporting.formed fun hs => ?_
  have hmember : ∀ m ∈ s.unionMembers r, s.Concrete m := fun m hm =>
    concrete_of_mem_unionMembers hr hflat hm
  unfold byLiteral
  split
  · cases branch with
    | whenTrue =>
        exact reporting.pure ((Covers.self (known_of_isUnit hs hc)).of_subset
          fun _ x ⟨m, _, hx⟩ => hx.2.1.mpr rfl)
    | whenFalse => exact reporting.pure (covers_memberSides hF hr hflat)
  · refine reporting_store fun _ => ?_
    cases branch with
    | whenTrue =>
        rw [if_pos (by decide)]
        refine reporting.bind (reporting_sharing hF hr ho hc hflat) fun s₁ kept h₁ _ hkept => ?_
        have hknown : ∀ u ∈ kept.map fun _ => c, u.index < s₁.size := fun u hu => by
          obtain ⟨_, _, rfl⟩ := List.mem_map.mp hu
          exact Nat.lt_of_lt_of_le (known_of_isUnit hs hc) h₁.size_le
        refine reporting_lift (building.mono (building_covers_values hF hknown)
          fun s₂ u h₂ _ hu => hu.of_subset fun hsF x ⟨m, hm, hx, hside, _⟩ => ?_)
        have hxc : x ∈ F.values c := hside.mpr rfl
        exact ⟨c, List.mem_map.mpr ⟨m, hkept (h₂.trans hsF) m hm x hx hxc, rfl⟩, hxc⟩
    | whenFalse =>
        rw [if_neg (by decide)]
        have hknown : ∀ u ∈ (s.unionMembers r).filterMap (unlike c), u.index < s.size := by
          intro u hu
          obtain ⟨m, hm, hu⟩ := List.mem_filterMap.mp hu
          exact known_of_unlike hs (hmember m hm).known hu
        refine reporting_lift (building.mono (building_covers_values hF hknown)
          fun s₂ u _ _ hu => hu.of_subset fun hsF x ⟨m, hm, hx, hside, _⟩ => ?_)
        obtain ⟨u, hu, hxu⟩ := exists_unlike hF hx fun hxc => absurd (hside.mp hxc) (by decide)
        exact ⟨u, List.mem_filterMap.mpr ⟨m, hm, hu⟩, hxu⟩

end conditions

section runs

variable {F s : Store} {setting : Setting} {t : TypeId} {branch : Branch} {test : ValueTest}

/-- Narrowing keeps the values that are on the side of the branch and seen by all members. -/
theorem reporting_narrow_covers (hF : F.Formed) (ho : setting.options.Positive)
    (htest : test.Proper s) (ht : s.Concrete t) :
    reporting.Holds s (narrow setting t test.guard branch) (Covers F · {x | x ∈ F.values t ∧
      (test.Passes F x ↔ branch.isTrue) ∧ ∀ l ∈ F.unionLeaves t, test.Sees F x l}) := by
  refine reporting.formed fun hs => ?_
  refine reporting.bind
    (reporting_and (reporting_resolve hF ho ht) (reporting_resolve_traces ho ht)) ?_
  rintro s₁ r h₁ hs₁ ⟨⟨hwidens, hflat⟩, htraces, hform⟩
  have hr := hwidens.right
  -- what is on the side of the branch is so in one of the members of what the type is resolved to
  have hlater : ∀ {step : Reporting TypeId},
      reporting.Holds s₁ step (Covers F · (memberSides F s₁ test branch r)) →
      reporting.Holds s₁ step (Covers F · {x | x ∈ F.values t ∧
        (test.Passes F x ↔ branch.isTrue) ∧ ∀ l ∈ F.unionLeaves t, test.Sees F x l}) := by
    intro step hstep
    refine reporting.mono hstep fun s₂ y h₂ _ hy => hy.of_subset ?_
    rintro hsF₂ x ⟨hx, hside, hsees⟩
    have hsF := h₂.trans hsF₂
    obtain ⟨m, hm, hxm⟩ := (exists_mem_unionLeaves_values hF
      (Nat.lt_of_lt_of_le hr.known hsF.size_le)).mpr ((hwidens.encloses hsF).values hx)
    refine ⟨m, ?_, hxm, hside, ?_⟩
    · rw [hr.unionLeaves_eq hsF, hflat.mem_unionLeaves] at hm
      exact hm
    · exact ValueTest.sees_of_comesFrom hF ((htraces.mono hsF).leaves m hm) hsees
  cases test with
  | kind k => exact hlater (reporting_lift (building_byTypeof_covers hF hr hflat))
  | equals c => exact hlater (reporting_byLiteral_covers hF hr ho (isUnit_mono hs h₁ htest) hflat)
  | nullish => exact hlater (reporting_lift (building_byNullish_covers hF hr hform))
  | truthy => exact hlater (reporting_lift (building_byTruth_covers hF hr hflat))

end runs

end Narrowing

namespace ValueTest

variable {s s' : Store} {test : ValueTest} {m : TypeId} {x : Datum}

theorem ok_guard (hs : s.Formed) (htest : test.Proper s) :
    Replay.Ok (fun _ => False) s test.guard := by
  cases test with
  | equals c => exact (Narrowing.concrete_of_isUnit hs htest).closed
  | kind _ | nullish | truthy => exact trivial

/-- Whether a value passes does not depend on the store. -/
theorem passes_later (hs : s.Formed) (hext : s.Extends s') (htest : test.Proper s) :
    test.Passes s' x ↔ test.Passes s x := by
  cases test with
  | equals c =>
      have hvalues := hext.values_eq hs (Narrowing.known_of_isUnit hs htest)
      simp only [Passes, hvalues]
  | kind _ | nullish | truthy => exact Iff.rfl

theorem Sees.later (h : test.Sees s x m) (hext : s.Extends s') (hm : m.index < s.size) :
    test.Sees s' x m := by
  have hempty : s'.isEmptyObject m = s.isEmptyObject m := by
    simp only [isEmptyObject, objectShape?, hext.node_eq m hm]
  cases test with
  | kind k => exact fun h' => h (hempty ▸ h')
  | truthy => exact ⟨fun h' => h.1 (hempty ▸ h'), h.2⟩
  | equals _ | nullish => exact h

end ValueTest

/-- Narrowing by a condition on a value itself loses no value that is on the side of the branch and
that it takes account of. -/
theorem narrow_test_keeps {setting : Setting} {s : Store} {t : TypeId} {test : ValueTest}
    {x : Datum} (hs : s.Formed) (ho : setting.options.Positive) (ht : s.Concrete t)
    (htest : test.Proper s) (branch : Branch) (ds : Array Diagnostic) (hx : x ∈ s.values t)
    (hside : test.Passes s x ↔ branch.isTrue) (hsees : ∀ l ∈ s.unionLeaves t, test.Sees s x l) :
    let run := Narrowing.narrow setting t test.guard branch ds s
    x ∈ run.2.values run.1.1 := by
  intro run
  obtain ⟨hgrows, hformed⟩ : s.Extends run.2 ∧ run.2.Formed :=
    extends_narrow hs ht (ValueTest.ok_guard hs htest) ds
  have hcovers : Covers run.2 run.2 _ run.1.1 :=
    (Narrowing.reporting_narrow_covers hformed ho htest ht ds hs).2.2
  refine hcovers.values (.refl _) ⟨?_, ?_, fun l hl => ?_⟩
  · rwa [hgrows.values_eq hs ht.known]
  · rwa [ValueTest.passes_later hs hgrows htest]
  · rw [ht.unionLeaves_eq hgrows] at hl
    exact (hsees l hl).later hgrows (ht.of_mem_unionLeaves hl).known

end TypeResolution
