import TypeResolution.Proofs.Assignability.Merging
import TypeResolution.Proofs.Inference.Widening
import TypeResolution.Proofs.Tidy.Basic

/-!
Widening as a closure. To widen again changes nothing, and a type is assignable to what it is widened
to. A union is widened to the union in normal form of its widened members, so a member is assignable
to whatever takes all that its own widened type stands for. A union of which a member comes to `never`
is left out: in normal form that member may be alone, and a target that comes to `never` takes no
union.
-/

namespace TypeResolution

open Store Assignability

section lists

variable {α β : Type} {R : α → β → Prop} {l : List α} {l' : List β}

theorem exists_left_of_forall₂ (h : List.Forall₂ R l l') : ∀ b ∈ l', ∃ a ∈ l, R a b := by
  induction h with
  | nil => simp
  | cons hab _ ih =>
      simp only [List.forall_mem_cons, List.exists_mem_cons_iff]
      exact ⟨.inl hab, fun b hb => .inr (ih b hb)⟩

theorem exists_right_of_forall₂ (h : List.Forall₂ R l l') : ∀ a ∈ l, ∃ b ∈ l', R a b :=
  exists_left_of_forall₂ h.flip

end lists

namespace Inference

variable {Γ : Context} {s s' : Store} {t r y : TypeId} {ts rs ms : List TypeId}

def IsTop (t : TypeId) : Prop := t = .any ∨ t = .unknown ∨ t = .error

theorem IsTop.fixed (h : IsTop t) : t.isFixed ∧ t ≠ .never := by
  rcases h with rfl | rfl | rfl <;> exact ⟨rfl, by decide⟩

/-- All that `r` stands for is `y` or a member of `y`. -/
def Accepts (Γ : Context) (y r : TypeId) : Prop :=
  ∀ l ∈ Γ.store.unionLeaves r, l = .never ∨ l = y ∨ ∃ ms, Γ.store.node y = .union ms ∧ l ∈ ms

/-- `t` is assignable to `r`, and to what accepts `r`. -/
structure Covers (Γ : Context) (t r : TypeId) : Prop where
  below : Assignable Γ t r
  into : ∀ y, Proper Γ y → ¬IsTop r → Accepts Γ y r → Assignable Γ t y
  never : r = .never ↔ t = .never
  proper : Proper Γ t → Proper Γ r

section covers

variable (hΓ : Γ.store.Formed)

include hΓ

theorem proper_of_isTop (h : IsTop r) : Proper Γ r := by
  exact proper_of_fixed (resolved_of_top hΓ h) h.fixed.2

omit hΓ in
theorem covers_of_not_union (hr : Γ.store.unionMembers? r = none) (hbelow : Assignable Γ t r)
    (hmember : ∀ y ms, Γ.store.node y = .union ms → r ∈ ms → Assignable Γ t y)
    (hnever : r = .never ↔ t = .never) (hproper : Proper Γ t → Proper Γ r) : Covers Γ t r := by
  refine ⟨hbelow, fun y _ _ hy => ?_, hnever, hproper⟩
  rcases hy r (by rw [unionLeaves_of_not_union hr]; simp) with heq | rfl | ⟨ms, hn, hm⟩
  · exact assignable_of_unfolds (.bottom (.inl (hnever.mp heq)))
  · exact hbelow
  · exact hmember y ms hn hm

theorem covers_self (ht : Γ.store.unionMembers? t = none) : Covers Γ t t :=
  covers_of_not_union ht (assignable_refl t)
    (fun _ _ hn hm => assignable_of_choice hΓ (.member hn hm .self)) Iff.rfl id

theorem covers_literal {v : Literal} (hn : Γ.store.node t = .literal v) : Covers Γ t v.primitive := by
  have hfixed : v.primitive.isFixed := by cases v <;> rfl
  have hne : v.primitive ≠ .never := by cases v <;> exact nofun
  refine covers_of_not_union (unionMembers?_fixed hΓ hfixed)
    (assignable_of_choice hΓ (.literal hn))
    (fun _ _ hy hm => assignable_of_choice hΓ (.member hy hm (.literal hn)))
    ⟨fun h => absurd h hne, ?_⟩ fun _ => proper_of_fixed (resolved_of_isFixed hΓ hfixed) hne
  rintro rfl
  cases hn.symm.trans (hΓ.node_intrinsic .never)

theorem ne_never_of_node {n : Node} (hn : Γ.store.node t = n) (hne : n ≠ .intrinsic .never) :
    t ≠ .never := by
  rintro rfl
  exact hne (hn.symm.trans (hΓ.node_intrinsic .never))

theorem covers_structural {m n : Node} (hnt : Γ.store.node t = m) (hnr : Γ.store.node r = n)
    (hm : m ≠ .intrinsic .never) (hn : n.isStructural) (hunion : n.unionMembers? = none)
    (hbelow : Assignable Γ t r) : Covers Γ t r := by
  have hplain : n.isMeta = false := by cases n <;> first | rfl | cases hn
  have hrr : Γ.resolved r = r := resolved_of_plain (by rw [hnr, hplain])
  have hne : r ≠ .never := ne_never_of_node hΓ hnr (by rintro rfl; cases hn)
  exact covers_of_not_union (by rw [unionMembers?, hnr, hunion]) hbelow
    (fun _ _ hn hm => assignable_into_union hΓ hn hm hrr hbelow)
    (iff_of_false hne (ne_never_of_node hΓ hnt hm)) fun _ => proper_of_fixed hrr hne

end covers

/-- What `t` is widened to in a store that is on the way to the one of the assignability. -/
structure WidensTo (Γ : Context) (t : TypeId) (s : Store) (r : TypeId) : Prop where
  widened : Widened s r
  covers : s.Extends Γ.store → Covers Γ t r

theorem WidensTo.mono (h : s.Extends s') (hr : WidensTo Γ t s r) : WidensTo Γ t s' r where
  widened := hr.widened.mono h
  covers hF := hr.covers (h.trans hF)

/-- What a union in normal form of widened types stands for. -/
structure United (Γ : Context) (rs : List TypeId) (r : TypeId) : Prop where
  form : InUnionForm Γ.store r
  top : ∀ w ∈ rs, IsTop w → IsTop r
  leaves : ¬IsTop r → ∀ w ∈ rs, ∀ l ∈ Γ.store.unionLeaves w,
    l = .never ∨ l ∈ Γ.store.unionLeaves r
  never : r = .never → ∀ w ∈ rs, w = .never
  alone : ¬IsTop r → r ≠ .never → Γ.store.unionMembers? r = none → r ∈ rs

theorem absorbLiterals_of_plain (hs : s.Formed) (h : ∀ t ∈ ts, ∀ v, s.node t ≠ .literal v) :
    s.absorbLiterals ts = ts := by
  have htrue : TypeId.trueLiteral ∉ ts := fun hmem => h _ hmem _ (hs.node_ofBool true)
  unfold absorbLiterals
  rw [if_neg (by simp [htrue]), List.filter_eq_self]
  intro t ht
  dsimp only
  cases hn : s.node t with
  | literal v => exact absurd hn (h t ht v)
  | _ => rfl

section united

variable (hs : s.Formed) (hrs : ∀ w ∈ rs, Widened s w)

include hs hrs

theorem flat_of_widened : ∀ l ∈ TypeId.sortUnique s.numbers (rs.flatMap s.unionLeaves),
    Widened s l ∧ s.unionMembers? l = none := by
  intro l hl
  refine ⟨forall_mem_flatLeaves (fun u ms hu hn m hm => hu.part ?_) hrs l hl,
    flatLeaves_flat hs Node.unionMembers?_subset (fun w hw => (hrs w hw).known) l hl⟩
  rw [Node.eq_union_of_members hn]
  exact hm

omit hs in
theorem eq_never_of_leaves {w : TypeId} (hw : w ∈ rs)
    (h : ∀ l ∈ s.unionLeaves w, l = .never) : w = .never := by
  cases hn : s.unionMembers? w with
  | none => exact h w (by rw [unionLeaves_of_not_union hn]; simp)
  | some ms =>
      have hnode := node_of_unionMembers? hn
      obtain ⟨hmany, -, hform⟩ := (hrs w hw).form ms hnode
      obtain ⟨m, hm⟩ := List.exists_mem_of_length_pos (Nat.lt_of_lt_of_le Nat.zero_lt_two hmany)
      exact absurd (h m ((hrs w hw).form.leaves_eq hnode ▸ hm)) (hform.plain m hm).2.2.2

omit hs in
theorem eq_of_leaves {w : TypeId} (hw : w ∈ rs) (hr : r ∈ s.unionLeaves w)
    (h : ∀ l ∈ s.unionLeaves w, l = .never ∨ l = r) : r = w := by
  cases hn : s.unionMembers? w with
  | none => exact List.mem_singleton.mp (unionLeaves_of_not_union hn ▸ hr)
  | some ms =>
      have hnode := node_of_unionMembers? hn
      obtain ⟨hmany, hsorted, hform⟩ := (hrs w hw).form ms hnode
      rw [(hrs w hw).form.leaves_eq hnode] at h
      have hsame : ∀ m ∈ ms, m = r := fun m hm => (h m hm).resolve_left (hform.plain m hm).2.2.2
      match ms with
      | a :: b :: rest =>
          have hne : a ≠ b := ((List.pairwise_cons.mp hsorted).1 b (by simp)).ne
          exact absurd ((hsame a (by simp)).trans (hsame b (by simp)).symm) hne

/-- Nothing is absorbed: what is joined stands for the same types, but for `never`. -/
theorem mem_leaves_of_joined {l : TypeId} (h : s.Extends s') (hs' : s'.Formed)
    (hj : Joined s (TypeId.sortUnique s.numbers (rs.flatMap s.unionLeaves)) s' r) (hr : Widened s' r)
    (htop : ¬IsTop r) (hne : l ≠ .never) :
    l ∈ s'.unionLeaves r ↔ ∃ w ∈ rs, l ∈ s.unionLeaves w := by
  have hflat := flat_of_widened hs hrs
  have hmem : l ∈ TypeId.sortUnique s.numbers (rs.flatMap s.unionLeaves) ↔ ∃ w ∈ rs, l ∈ s.unionLeaves w :=
    TypeId.mem_sortUnique.trans List.mem_flatMap
  rw [← hmem]
  generalize TypeId.sortUnique s.numbers (rs.flatMap s.unionLeaves) = flat at hj hflat
  have habsorb : s.absorbLiterals (flat.filter (· ≠ .never)) = flat.filter (· ≠ .never) :=
    absorbLiterals_of_plain hs fun l hl v => (hflat l (List.mem_filter.mp hl).1).1.plain v
  have hleft : l ∈ s.absorbLiterals (flat.filter (· ≠ .never)) ↔ l ∈ flat := by
    rw [habsorb]
    simp [hne]
  rw [← hleft]
  cases hj with
  | error _ => exact absurd (.inr (.inr rfl)) htop
  | any _ => exact absurd (.inl rfl) htop
  | unknown _ => exact absurd (.inr (.inl rfl)) htop
  | never hnone =>
      rw [hnone, unionLeaves_of_not_union (unionMembers?_fixed hs' rfl)]
      simpa using hne
  | single hone =>
      have hrflat : r ∈ flat := by
        rw [habsorb] at hone
        exact (List.mem_filter.mp (hone ▸ List.mem_singleton_self r)).1
      have hnode : s'.unionMembers? r = none := by
        rw [unionMembers?, h.node_eq r (hflat r hrflat).1.known]
        exact (hflat r hrflat).2
      rw [hone, unionLeaves_of_not_union hnode]
  | union _ _ _ hms _ hn => rw [hr.form.leaves_eq hn, hms]

theorem united_of_joined (hΓ : Γ.store.Formed) (h : s.Extends s') (hs' : s'.Formed)
    (hj : Joined s (TypeId.sortUnique s.numbers (rs.flatMap s.unionLeaves)) s' r) (hr : Widened s' r)
    (hF : s'.Extends Γ.store) : United Γ rs r := by
  have hform : InUnionForm Γ.store r := (hr.mono hF).form
  have hleaves : ∀ w ∈ rs, Γ.store.unionLeaves w = s.unionLeaves w := fun w hw =>
    unionLeaves_eq (h.trans hF) hs (hrs w hw).known
  have hmem : ¬IsTop r → ∀ l, l ≠ .never →
      (l ∈ Γ.store.unionLeaves r ↔ ∃ w ∈ rs, l ∈ s.unionLeaves w) := by
    intro htop l hne
    rw [unionLeaves_eq hF hs' hr.known]
    exact mem_leaves_of_joined hs hrs h hs' hj hr htop hne
  have hkept : ¬IsTop r → ∀ w ∈ rs, ∀ l ∈ s.unionLeaves w,
      l = .never ∨ l ∈ Γ.store.unionLeaves r := fun htop w hw l hl =>
    or_iff_not_imp_left.mpr fun hne => (hmem htop l hne).mpr ⟨w, hw, hl⟩
  refine ⟨hform, fun w hw hwtop => ?_, fun htop w hw l hl => ?_, fun hr w hw => ?_,
    fun htop hne hnone => ?_⟩
  · by_contra htop
    have hleaf : w ∈ s.unionLeaves w := by
      rw [unionLeaves_of_not_union (unionMembers?_fixed hs hwtop.fixed.1)]
      exact List.mem_singleton_self w
    have hmember := (hkept htop w hw w hleaf).resolve_left hwtop.fixed.2
    refine htop (hform.eq_of_mem_leaves hmember ?_ ▸ hwtop)
    rcases hwtop with rfl | rfl | rfl <;> simp
  · exact hkept htop w hw l (hleaves w hw ▸ hl)
  · subst hr
    refine eq_never_of_leaves hrs hw fun l hl => ?_
    have hnever := hkept (by simp [IsTop, TypeId.never, TypeId.any, TypeId.unknown, TypeId.error])
      w hw l hl
    rw [unionLeaves_of_not_union (unionMembers?_fixed hΓ rfl), List.mem_singleton, or_self] at hnever
    exact hnever
  · have hself : Γ.store.unionLeaves r = [r] := unionLeaves_of_not_union hnone
    obtain ⟨w, hw, hrw⟩ := (hmem htop r hne).mp (hself ▸ List.mem_singleton_self r)
    have hone : ∀ l ∈ s.unionLeaves w, l = .never ∨ l = r := by
      intro l hl
      simpa [hself] using hkept htop w hw l hl
    exact eq_of_leaves hrs hw hrw hone ▸ hw

end united

theorem building_united (hΓ : Γ.store.Formed) (hrs : ∀ w ∈ rs, Widened s w) :
    building.Holds s (Build.union rs) fun s' r => s'.Extends Γ.store → United Γ rs r := by
  refine building.formed fun hs => ?_
  have hknown : ∀ w ∈ rs, w.index < s.size := fun w hw => (hrs w hw).known
  refine building.mono (building_and (building_joined hknown) (widened_union hrs))
    fun s' r h hs' hr => ?_
  intro hF
  exact united_of_joined hs hrs hΓ h hs' hr.1.2 hr.2 hF

/-- Of the members of a union none comes to `never` but `never` itself, and an object has no index
signature. -/
def Distinguished (Γ : Context) : Node → Prop
  | .union ms => ∀ m ∈ ms, m = .never ∨ Proper Γ m
  | .object shape => shape.stringIndex = none
  | _ => True

/-- All types that widening meets are of this kind. -/
inductive Widenable (Γ : Context) (s : Store) : TypeId → Prop
  | intro {t : TypeId} : Distinguished Γ (s.node t) →
      (∀ c ∈ (s.node t).widening, Widenable Γ s c) → Widenable Γ s t

section walk

variable (hΓ : Γ.store.Formed)

include hΓ

theorem covers_union (hn : Γ.store.node t = .union ms) (hmany : ∃ m ∈ ms, m ≠ .never)
    (hproper : ∀ m ∈ ms, m = .never ∨ Proper Γ m) (hrs : List.Forall₂ (Covers Γ) ms rs)
    (hr : United Γ rs r) : Covers Γ t r := by
  have hfrom : ∀ m ∈ ms, ∃ w ∈ rs, Covers Γ m w := exists_right_of_forall₂ hrs
  have hto : ∀ w ∈ rs, ∃ m ∈ ms, Covers Γ m w := exists_left_of_forall₂ hrs
  have hne : r ≠ .never := by
    intro heq
    obtain ⟨m, hm, hmne⟩ := hmany
    obtain ⟨w, hw, hcovers⟩ := hfrom m hm
    exact hmne (hcovers.never.mp (hr.never heq w hw))
  have htne : t ≠ .never := ne_never_of_node hΓ hn (by simp)
  have hrproper : Proper Γ r := by
    by_cases htop : IsTop r
    · exact proper_of_isTop hΓ htop
    cases hunion : Γ.store.unionMembers? r with
    | some us =>
        have hnode := node_of_unionMembers? hunion
        exact proper_of_fixed (resolved_of_plain (by rw [hnode]; rfl)) hne
    | none =>
        obtain ⟨m, hm, hcovers⟩ := hto r (hr.alone htop hne hunion)
        exact hcovers.proper ((hproper m hm).resolve_left fun h => hne (hcovers.never.mpr h))
  -- what accepts the whole union accepts what each member is widened to
  have hinto : ∀ y, Proper Γ y → ¬IsTop r → Accepts Γ y r → Assignable Γ t y := by
    intro y hy htop haccepts
    rw [assignable_union_iff hΓ hn hy]
    intro m hm
    obtain ⟨w, hw, hcovers⟩ := hfrom m hm
    refine hcovers.into y hy (fun h => htop (hr.top w hw h)) fun l hl => ?_
    exact (hr.leaves htop w hw l hl).elim .inl (haccepts l)
  refine ⟨?_, hinto, iff_of_false hne htne, fun _ => hrproper⟩
  by_cases htop : IsTop r
  · exact assignable_of_unfolds (.top htop)
  refine hinto r hrproper htop fun l hl => ?_
  cases hunion : Γ.store.unionMembers? r with
  | some us =>
      have hnode := node_of_unionMembers? hunion
      exact .inr (.inr ⟨us, hnode, hr.form.leaves_eq hnode ▸ hl⟩)
  | none =>
      rw [unionLeaves_of_not_union hunion, List.mem_singleton] at hl
      exact .inr (.inl hl)

theorem covers_object {o p : ObjectShape} (hexcess : Γ.excess = false) (hdistinct : o.Distinct)
    (hindex : p.stringIndex = none) (hnt : Γ.store.node t = .object o)
    (hnr : Γ.store.node r = .object p)
    (hfields : ∀ g ∈ p.fields, ∃ f ∈ o.fields, f.name = g.name ∧ f.optional = g.optional ∧
      Assignable Γ f.type g.type) : Covers Γ t r := by
  apply covers_structural hΓ hnt hnr (by simp) rfl rfl
  apply assignable_of_fields hΓ hexcess hnt hnr hindex
  intro g hg
  obtain ⟨f, hf, hname, hoptional, hbelow⟩ := hfields g hg
  unfold FieldFits
  rw [← hname, hdistinct.find? hf]
  exact ⟨fun h => hoptional ▸ h, hbelow⟩

theorem covers_array {c d : TypeId} (hnt : Γ.store.node t = .array c)
    (hnr : Γ.store.node r = .array d) (h : Assignable Γ c d) : Covers Γ t r := by
  apply covers_structural hΓ hnt hnr (by simp) rfl rfl
  apply assignable_of_fits (resolved_of_plain (by rw [hnt]; rfl))
    (resolved_of_plain (by rw [hnr]; rfl)) (ne_never_of_node hΓ hnr (by simp))
  rw [hnt, hnr]
  exact ShapeFits.array h

theorem covers_function {params : List TypeId} {c d : TypeId}
    (hnt : Γ.store.node t = .function ⟨params, c⟩) (hnr : Γ.store.node r = .function ⟨params, d⟩)
    (h : Assignable Γ c d) : Covers Γ t r := by
  apply covers_structural hΓ hnt hnr (by simp) rfl rfl
  apply assignable_of_fits (resolved_of_plain (by rw [hnt]; rfl))
    (resolved_of_plain (by rw [hnr]; rfl)) (ne_never_of_node hΓ hnr (by simp))
  rw [hnt, hnr]
  have hparams : List.Forall₂ (fun a b => Assignable Γ b a) params params :=
    List.forall₂_same.mpr fun a _ => assignable_refl a
  exact ShapeFits.function ⟨Nat.le_refl _, fun x hx => (List.forall₂_iff_zip.mp hparams).2 hx, .inr h⟩

omit hΓ in
theorem exists_ne_of_tidy {numbers : Numbering} (h : (Node.union ms).Tidy numbers) :
    ∃ m ∈ ms, m ≠ .never := by
  obtain ⟨hmany, hsorted⟩ := h
  match ms with
  | a :: b :: rest =>
      have hne : a ≠ b := ((List.pairwise_cons.mp hsorted).1 b (by simp)).ne
      by_cases hb : b = .never
      · exact ⟨a, by simp, fun ha => hne (ha.trans hb.symm)⟩
      · exact ⟨b, by simp, hb⟩

/-- A field of a widened object, and the field that it was. -/
structure FieldCovers (Γ : Context) (s : Store) (f g : Field) : Prop where
  name : f.name = g.name
  optional : f.optional = g.optional
  known : g.type.index < s.size
  below : s.Extends Γ.store → Assignable Γ f.type g.type

omit hΓ in
theorem FieldCovers.mono {f g : Field} (h : s.Extends s') (hfg : FieldCovers Γ s f g) :
    FieldCovers Γ s' f g where
  name := hfg.name
  optional := hfg.optional
  known := Nat.lt_of_lt_of_le hfg.known h.size_le
  below hF := hfg.below (h.trans hF)

omit hΓ in
theorem fieldCovers_widen {f : Field} {walk : Build TypeId} (hknown : f.type.index < s.size)
    (h : f.readonly = false → building.Holds s walk (WidensTo Γ f.type)) :
    building.Holds s (do
      if f.readonly then return f
      else return { f with type := ← walk }) fun s' g => FieldCovers Γ s' f g := by
  split
  · exact building.pure ⟨rfl, rfl, hknown, fun _ => assignable_refl _⟩
  · rename_i hmutable
    exact building.bind (h (by simpa using hmutable)) fun s₁ r _ _ hr =>
      building.pure ⟨rfl, rfl, hr.widened.known, fun hF => (hr.covers hF).below⟩

theorem covers_fields {shape : ObjectShape} {gs : List Field} (hexcess : Γ.excess = false)
    (hdistinct : shape.Distinct) (hindex : shape.stringIndex = none)
    (hgs : ∀ g ∈ gs, ∃ f ∈ shape.fields, FieldCovers Γ s f g) :
    building.Holds s (Build.object { shape with fields := gs }) fun s' r =>
      s'.Extends Γ.store → Γ.store.node t = .object shape → Covers Γ t r := by
  have hknown : ∀ c ∈ (Node.object { shape with fields := gs }).components, c.index < s.size := by
    intro c hc
    obtain ⟨g, hg, rfl⟩ : ∃ g ∈ gs, g.type = c := by simpa [Node.components, hindex] using hc
    obtain ⟨f, -, hfg⟩ := hgs g hg
    exact hfg.known
  refine building.mono (building_intern hknown) fun s' r h _ hr hF hnode => ?_
  obtain ⟨p, hp, hsorted⟩ := Node.exists_object_of_identity_eq hr.2
  apply covers_object hΓ hexcess hdistinct
    ((ObjectShape.stringIndex_of_sorted_eq hsorted).trans hindex) hnode
    ((hF.node_eq r hr.1).trans hp)
  intro g hg
  obtain ⟨f, hf, hfg⟩ := hgs g ((ObjectShape.perm_of_sorted_eq hsorted).mem_iff.mp hg)
  exact ⟨f, hf, hfg.name, hfg.optional, hfg.below (h.trans hF)⟩

theorem widensTo_widenAt {s₀ : Store} {fuel : Nat} (hexcess : Γ.excess = false) (hs₀ : s₀.Formed)
    (htidy : s₀.Tidy) (h : s₀.Extends s) (ht : t.index < s₀.size) (hw : Widenable Γ s₀ t)
    (hfuel : t.index < fuel) :
    building.Holds s (widenAt fuel t) (WidensTo Γ t) := by
  induction fuel generalizing s t with
  | zero => exact absurd hfuel (Nat.not_lt_zero _)
  | succ fuel ih =>
      have hwidened := widened_widenAt (Nat.lt_of_lt_of_le ht h.size_le) hfuel
      suffices hcovers : building.Holds s (widenAt (fuel + 1) t) fun s' r =>
          s'.Extends Γ.store → Covers Γ t r from
        building.mono (building_and hwidened hcovers) fun s' r _ _ hr => ⟨hr.1, hr.2⟩
      obtain ⟨hdistinguished, hparts⟩ := hw
      have hpart : ∀ c ∈ (s₀.node t).widening, ∀ s₁, s.Extends s₁ →
          building.Holds s₁ (widenAt fuel c) (WidensTo Γ c) := by
        intro c hc s₁ h₁
        have hlt := hs₀.descends t ht c (Node.widening_subset _ hc)
        exact ih (h.trans h₁) (Nat.lt_trans hlt ht) (hparts c hc)
          (Nat.lt_of_lt_of_le hlt (Nat.le_of_lt_succ hfuel))
      have hknown : ∀ c ∈ (s₀.node t).components, c.index < s.size := fun c hc =>
        Nat.lt_of_lt_of_le (Nat.lt_trans (hs₀.descends t ht c hc) ht) h.size_le
      have htidy := htidy t
      unfold widenAt
      refine building_get ?_
      rw [h.node_eq t ht]
      have hnode : ∀ {n s'}, s₀.node t = n → s.Extends s' → s'.Extends Γ.store →
          Γ.store.node t = n := fun hn h₁ hF => ((h.trans (h₁.trans hF)).node_eq t ht).trans hn
      cases hn : s₀.node t with
      | literal v => exact building.pure fun hF => covers_literal hΓ (hnode hn (.refl s) hF)
      | union ms =>
          rw [hn] at hpart hdistinguished htidy
          refine building.bind (building.mapM (P := fun s' c w => WidensTo Γ c s' w)
            (fun h hc => hc.mono h) fun c hc s₁ h₁ _ => hpart c hc s₁ h₁) fun s₁ rs h₁ _ hrs => ?_
          have hwidened : ∀ w ∈ rs, Widened s₁ w :=
            forall_right_of_forall₂ hrs fun _ _ h => h.widened
          refine building.mono (building_united hΓ hwidened) fun s' r h₂ _ hr hF => ?_
          exact covers_union hΓ (hnode hn (h₁.trans h₂) hF) (exists_ne_of_tidy htidy) hdistinguished
            (hrs.imp fun _ _ h => h.covers (h₂.trans hF)) (hr hF)
      | object shape =>
          rw [hn] at hpart hknown hdistinguished htidy
          have hfield : ∀ f ∈ shape.fields, f.type.index < s.size := fun f hf =>
            hknown _ (List.mem_append_left _ (List.mem_map_of_mem hf))
          have hwiden : ∀ f ∈ shape.fields, f.readonly = false →
              f.type ∈ (Node.object shape).widening := fun f hf hmutable =>
            List.mem_map_of_mem (List.mem_filter.mpr ⟨hf, by simp [hmutable]⟩)
          refine building.bind (building.mapM (P := FieldCovers Γ) (fun h hfg => hfg.mono h)
            fun f hf s₁ h₁ _ => ?_) fun s₁ gs h₁ _ hgs => ?_
          · exact fieldCovers_widen (Nat.lt_of_lt_of_le (hfield f hf) h₁.size_le) fun hmutable =>
              hpart f.type (hwiden f hf hmutable) s₁ h₁
          · exact building.mono (covers_fields hΓ hexcess htidy hdistinguished
              (exists_left_of_forall₂ hgs)) fun s' r h₂ _ hr hF =>
              hr hF (hnode hn (h₁.trans h₂) hF)
      | array element =>
          rw [hn] at hpart
          refine building.bind (hpart element (by simp [Node.widening]) s (.refl s))
            fun s₁ d h₁ _ hd => ?_
          have hknown : ∀ c ∈ (Node.array d).components, c.index < s₁.size := by
            simpa [Node.components] using hd.widened.known
          refine building.mono (building_node hknown (by simp)) fun s' r h₂ _ hr hF => ?_
          exact covers_array hΓ (hnode hn (h₁.trans h₂) hF) ((hF.node_eq r hr.1).trans hr.2)
            (hd.covers (h₂.trans hF)).below
      | function shape =>
          rw [hn] at hpart hknown
          refine building.bind (hpart shape.result (by simp [Node.widening]) s (.refl s))
            fun s₁ d h₁ _ hd => ?_
          refine building.mono (building_node (fun c hc => ?_) (by simp)) fun s' r h₂ _ hr hF => ?_
          · rcases List.mem_append.mp hc with hc | hc
            · exact Nat.lt_of_lt_of_le (hknown c (List.mem_append_left _ hc)) h₁.size_le
            · exact List.mem_singleton.mp hc ▸ hd.widened.known
          · exact covers_function hΓ (hnode hn (h₁.trans h₂) hF) ((hF.node_eq r hr.1).trans hr.2)
              (hd.covers (h₂.trans hF)).below
      | _ =>
          refine building.pure fun hF => covers_self hΓ ?_
          rw [unionMembers?, hnode hn (.refl s) hF]
          rfl

end walk

/-- To widen again changes nothing. Without a check for excess fields a type is assignable to what it
is widened to, unless a union on the way has a member that comes to `never`. -/
theorem widen_closure {setting : Setting} {F : Store} {verdict : Bool} (hs : s.Formed)
    (htidy : s.Tidy) (hF : F.Formed) (henv : setting.environment.Known s)
    (hexcess : setting.options.excessPropertyCheck = false) (ht : t.index < s.size) :
    let made := widen t s
    widen made.1 made.2 = made ∧
    (Widenable (setting.context F) s t → Finds setting made.2 F t made.1 verdict →
      verdict = true) := by
  intro made
  obtain ⟨hgrows, hmade, hwidened⟩ := widened_widen ht hs
  refine ⟨widen_of_widened hmade hwidened, fun hw h => ?_⟩
  have hlater : t.index < made.2.size := Nat.lt_of_lt_of_le ht hgrows.size_le
  have hext : made.2.Extends F := h.extends (henv.mono hgrows) hlater hwidened.known
  obtain ⟨-, -, hresult⟩ := widensTo_widenAt (Γ := setting.context F) hF hexcess hs htidy (.refl s)
    ht hw (Nat.lt_succ_self _) hs
  rw [h.iff (henv.mono hgrows) hlater hwidened.known]
  exact (hresult.covers hext).below

end Inference

end TypeResolution
