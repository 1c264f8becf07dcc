import Mathlib
import TypeResolution.Proofs.Normal.Absorption

/-!
A union may be built in any grouping and order. Two unions are the same type when what the one is
made of absorbs what the other is made of and the other way round, whenever each of them was made.
A union in a list absorbs its members and is absorbed by them, so it stands for them; neither the
order of the list nor repetitions in it nor `never` matter to what it absorbs.
-/

namespace TypeResolution

open Store TypeResolution.Normal

/-- `r` is the union of `ts`, made at some time before the store was `F`. -/
def Store.Unites (F : Store) (ts : List TypeId) (r : TypeId) : Prop :=
  ∃ s : Store, s.Formed ∧ (∀ t ∈ ts, t.index < s.size) ∧ (Build.union ts s).1 = r ∧
    (Build.union ts s).2.Extends F

namespace Store.Unites

variable {F F' : Store} {ts us : List TypeId} {r a b u : TypeId}

theorem mono (h : F.Unites ts r) (hF : F.Extends F') : F'.Unites ts r := by
  obtain ⟨s, hs, hts, hr, hext⟩ := h
  exact ⟨s, hs, hts, hr, hext.trans hF⟩

/-- Uniting types of a store is one time at which their union is made. -/
theorem of_union {s : Store} (ts : List TypeId) (hs : s.Formed)
    (hts : ∀ t ∈ ts, t.index < s.size) :
    s.Extends (Build.union ts s).2 ∧ (Build.union ts s).2.Formed ∧
      (Build.union ts s).2.Unites ts (Build.union ts s).1 := by
  obtain ⟨hgrows, hformed, -⟩ := building_absorbs hts hs
  exact ⟨hgrows, hformed, s, hs, hts, rfl, .refl _⟩

theorem known (h : F.Unites ts r) : ∀ t ∈ ts, t.index < F.size := by
  obtain ⟨s, hs, hts, -, hext⟩ := h
  have hgrows := (of_union ts hs hts).1.trans hext
  exact fun t ht => Nat.lt_of_lt_of_le (hts t ht) hgrows.size_le

theorem result_known (h : F.Unites ts r) : r.index < F.size := by
  obtain ⟨s, hs, hts, rfl, hext⟩ := h
  exact Nat.lt_of_lt_of_le (building_absorbs hts hs).2.2.1 hext.size_le

/-- What a union was made in normal form stays in it. -/
theorem inUnionForm (h : F.Unites ts r) : InUnionForm F r := by
  obtain ⟨s, hs, hts, rfl, hext⟩ := h
  obtain ⟨-, hformed, hform⟩ := building_inUnionForm hts hs
  have hknown := (building_absorbs hts hs).2.2.1
  exact (InUnionForm.iff_of_extends hext (hformed.closed_of_known hknown)).mpr hform

/-- A union and what it is made of absorb each other. -/
theorem absorbs (h : F.Unites ts r) :
    (∀ l ∈ ts.flatMap F.unionLeaves, Absorbs F (F.unionLeaves r) l) ∧
      ∀ l ∈ F.unionLeaves r, Absorbs F (ts.flatMap F.unionLeaves) l := by
  obtain ⟨s, hs, hts, rfl, hext⟩ := h
  obtain ⟨hgrows, hformed, hknown, hforth, hback⟩ := building_absorbs hts hs
  have hparts : ts.flatMap F.unionLeaves = ts.flatMap s.unionLeaves :=
    List.flatMap_congr fun t ht => unionLeaves_eq (hgrows.trans hext) hs (hts t ht)
  rw [hparts, unionLeaves_eq hext hformed hknown]
  exact ⟨fun l hl => (hforth l hl).mono hext, fun l hl => (hback l hl).mono hext⟩

/-- Unions of what absorbs each other are one type. -/
theorem eq_of_absorbs (hF : F.Formed) (ha : F.Unites ts a) (hb : F.Unites us b)
    (hforth : ∀ l ∈ ts.flatMap F.unionLeaves, Absorbs F (us.flatMap F.unionLeaves) l)
    (hback : ∀ l ∈ us.flatMap F.unionLeaves, Absorbs F (ts.flatMap F.unionLeaves) l) :
    a = b := by
  -- made anew in `F`, the union of `us` is both of them
  have hsame : Build.union us F = (a, F) := by
    refine union_eq_of_absorbs hF ha.result_known ha.inUnionForm hb.known (fun l hl => ?_) fun l hl => ?_
    · exact (hback l hl).trans hF ha.absorbs.1
    · exact (ha.absorbs.2 l hl).trans hF hforth
  have hself : Build.union us F = (b, F) :=
    union_eq_of_absorbs hF hb.result_known hb.inUnionForm hb.known hb.absorbs.1 hb.absorbs.2
  exact congrArg Prod.fst (hsame.symm.trans hself)

/-- A union among the types stands for what it was made of. -/
theorem eq_of_nested (hF : F.Formed) (hu : F.Unites us u) (ha : F.Unites (ts ++ [u]) a)
    (hb : F.Unites (ts ++ us) b) : a = b := by
  refine eq_of_absorbs hF ha hb (fun l hl => ?_) fun l hl => ?_
  · rw [List.flatMap_append, List.flatMap_singleton] at hl
    rw [List.flatMap_append]
    rcases List.mem_append.mp hl with hl | hl
    · exact .member (List.mem_append_left _ hl)
    · exact (hu.absorbs.2 l hl).trans hF fun m hm => .member (List.mem_append_right _ hm)
  · rw [List.flatMap_append] at hl
    rw [List.flatMap_append, List.flatMap_singleton]
    rcases List.mem_append.mp hl with hl | hl
    · exact .member (List.mem_append_left _ hl)
    · exact (hu.absorbs.1 l hl).trans hF fun m hm => .member (List.mem_append_right _ hm)

theorem absorbs_of_mem (hF : F.Formed) (h : ∀ t ∈ ts, t ≠ .never → t ∈ us) :
    ∀ l ∈ ts.flatMap F.unionLeaves, Absorbs F (us.flatMap F.unionLeaves) l := by
  intro l hl
  obtain ⟨t, ht, hl⟩ := List.mem_flatMap.mp hl
  by_cases hnever : t = .never
  · have hleaf : F.unionLeaves .never = [.never] :=
      unionLeaves_of_not_union (unionMembers?_intrinsic hF .never)
    exact .never (List.mem_singleton.mp (hleaf ▸ hnever ▸ hl))
  · exact .member (List.mem_flatMap.mpr ⟨t, h t ht hnever, hl⟩)

/-- Neither order nor repetition nor `never` matter. -/
theorem eq_of_mem_iff (hF : F.Formed) (ha : F.Unites ts a) (hb : F.Unites us b)
    (h : ∀ t, t ≠ .never → (t ∈ ts ↔ t ∈ us)) : a = b :=
  eq_of_absorbs hF ha hb (absorbs_of_mem hF fun t ht hne => (h t hne).mp ht)
    (absorbs_of_mem hF fun t ht hne => (h t hne).mpr ht)

end Store.Unites

/-- Unions may be built in any grouping and order, whenever each of them is made: a union in a list
stands for the types that it was made of; lists with the same types up to `never`, so also a list
with its types in another order, repeated, or with `never` among them, have one union; and if that
is a union node, then its members stand in order, each once, there are at least two of them, and none
is a union, `never`, `any`, `unknown`, the error type, a literal beside its primitive, or one of
`true` and `false` beside the other. -/
theorem union_grouping_and_order {F : Store} (hF : F.Formed) :
    (∀ ts us u a b, F.Unites us u → F.Unites (ts ++ [u]) a → F.Unites (ts ++ us) b → a = b) ∧
    (∀ ts us a b, (∀ t, t ≠ .never → (t ∈ ts ↔ t ∈ us)) → F.Unites ts a → F.Unites us b → a = b) ∧
    ∀ ts r ms, F.Unites ts r → F.node r = .union ms →
      F.InOrder ms ∧ 1 < ms.length ∧
      (∀ m ∈ ms, F.unionMembers? m = none ∧ m ≠ .never ∧ m ≠ .any ∧ m ≠ .unknown ∧ m ≠ .error) ∧
      (∀ m ∈ ms, ∀ v, F.node m = .literal v → v.primitive ∉ ms) ∧
      ¬(.trueLiteral ∈ ms ∧ .falseLiteral ∈ ms) := by
  refine ⟨fun ts us u a b hu ha hb => ?_, fun ts us a b h ha hb => ?_, fun ts r ms hr hn => ?_⟩
  · exact hu.eq_of_nested hF ha hb
  · exact ha.eq_of_mem_iff hF hb h
  · obtain ⟨hmany, hsorted, hform⟩ := hr.inUnionForm ms hn
    refine ⟨hsorted, hmany, fun m hm => ?_, hform.absorbed, fun h => hform.not_both h.1 h.2⟩
    obtain ⟨herror, hany, hunknown, hnever⟩ := hform.plain m hm
    exact ⟨hform.flat m hm, hnever, hany, hunknown, herror⟩

/-- `string | (true | false)` and `never | false | string | true | true`, in which the literals
become `boolean` early and late. -/
theorem union_grouping_and_order_boolean :
    let inner := Build.union [.trueLiteral, .falseLiteral] Store.empty
    let nested := Build.union ([.string] ++ [inner.1]) inner.2
    let flat := Build.union ([.string] ++ [.trueLiteral, .falseLiteral]) nested.2
    let mixed := Build.union [.never, .falseLiteral, .string, .trueLiteral, .trueLiteral] flat.2
    nested.1 = flat.1 ∧ flat.1 = mixed.1 ∧ mixed.2.node mixed.1 = .union [.boolean, .string] ∧
      mixed.2.InOrder [.boolean, .string] := by
  intro inner nested flat mixed
  have hfixed : ∀ {s : Store} {ts : List TypeId}, s.Formed → (∀ t ∈ ts, t.isFixed) →
      ∀ t ∈ ts, t.index < s.size := fun hs h t ht => hs.known_of_isFixed (h t ht)
  obtain ⟨-, hs₁, hinner⟩ :=
    Unites.of_union [.trueLiteral, .falseLiteral] formed_empty (hfixed formed_empty (by decide))
  have hparts : ∀ t ∈ [TypeId.string] ++ [inner.1], t.index < inner.2.size := by
    intro t ht
    rcases List.mem_append.mp ht with ht | ht
    · exact hfixed hs₁ (by decide) t ht
    · exact List.mem_singleton.mp ht ▸ hinner.result_known
  obtain ⟨h₁₂, hs₂, hnested⟩ := Unites.of_union _ hs₁ hparts
  obtain ⟨h₂₃, hs₃, hflat⟩ := Unites.of_union ([.string] ++ [.trueLiteral, .falseLiteral]) hs₂
    (hfixed hs₂ (by decide))
  obtain ⟨h₃₄, hs₄, hmixed⟩ :=
    Unites.of_union [.never, .falseLiteral, .string, .trueLiteral, .trueLiteral] hs₃
      (hfixed hs₃ (by decide))
  have h₂₄ := h₂₃.trans h₃₄
  obtain ⟨hgroup, horder, hmembers⟩ := union_grouping_and_order (F := mixed.2) hs₄
  refine ⟨?_, ?_, ?_⟩
  · exact hgroup _ _ _ _ _ (hinner.mono (h₁₂.trans h₂₄)) (hnested.mono h₂₄) (hflat.mono h₃₄)
  · refine horder _ _ _ _ (fun t hne => ?_) (hflat.mono h₃₄) hmixed
    simp only [List.cons_append, List.nil_append, List.mem_cons, List.not_mem_nil, or_false, hne,
      false_or]
    tauto
  · have hnode : mixed.2.node mixed.1 = .union [.boolean, .string] := by
      simp only [mixed, flat, nested, inner]
      cbv
    obtain ⟨hsorted, -⟩ := hmembers _ _ _ hmixed hnode
    exact ⟨hnode, hsorted⟩

end TypeResolution
