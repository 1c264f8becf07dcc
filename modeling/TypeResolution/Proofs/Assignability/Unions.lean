import TypeResolution.Proofs.Assignability.Resolving
import TypeResolution.Proofs.Assignability.Verdicts
import TypeResolution.Proofs.Normal.Union

/-!
The union in normal form as a least upper bound. A type is assignable to whatever can be reached
from it backwards: to the unions that it is a member of, to the types that come to it by evaluation,
and, if it is a literal, to its primitive. A union is assignable to a target exactly when all of its
members are, unless the target comes to `never`. So the rewrites that absorb members keep what is
above all of them.
-/

namespace TypeResolution

namespace Assignability

open Store

variable {Γ : Context} {R : Relation} {a b c t u x y : TypeId} {ms : List TypeId}

theorem not_isFixed_of_union {s : Store} (hs : s.Formed) (hn : s.node t = .union ms) :
    t.isFixed = false :=
  hs.not_isFixed hn (by simp) (by simp) (by simp)

/-- `x` is one of the types that `t` stands for. -/
inductive Choice (Γ : Context) (x : TypeId) : TypeId → Prop
  | self : Choice Γ x x
  | member {t m : TypeId} {ms : List TypeId} : Γ.store.node t = .union ms → m ∈ ms → Choice Γ x m →
      Choice Γ x t
  | resolved {t : TypeId} : Γ.resolved t ≠ t → Choice Γ x (Γ.resolved t) → Choice Γ x t
  | literal {v : Literal} : Γ.store.node x = .literal v → Choice Γ x v.primitive

theorem not_literal_of_resolved_ne {v : Literal} (h : Γ.resolved t ≠ t) :
    Γ.store.node t ≠ .literal v := by
  intro hn
  have hmeta := isMeta_of_resolved_ne h
  simp [hn, Node.isMeta] at hmeta

theorem choice_resolved (x : TypeId) : Choice Γ (Γ.resolved x) x := by
  by_cases h : Γ.resolved x = x
  · rw [h]
    exact .self
  · exact .resolved h .self

section formed

variable (hΓ : Γ.store.Formed)

include hΓ

theorem eq_boolean (hn : Γ.store.node x = .intrinsic .boolean) : x = .boolean := by
  exact hΓ.eq_of_intrinsic (known_of_node hn (by simp)) hn

theorem choice_ofBool (b : Bool) : Choice Γ (.ofBool b) .boolean :=
  .literal (v := .boolean b) (hΓ.node_ofBool b)

theorem Choice.trans (hxy : Choice Γ x y) (hyt : Choice Γ y t) : Choice Γ x t := by
  induction hyt with
  | self => exact hxy
  | member hn hm _ ih => exact .member hn hm ih
  | resolved hne _ ih => exact .resolved hne ih
  | @literal v hv =>
      cases hxy with
      | self => exact .literal hv
      | member hn _ _ => cases hn.symm.trans hv
      | resolved hne _ => exact absurd hv (not_literal_of_resolved_ne hne)
      | @literal w _ =>
          obtain ⟨k, -, hk⟩ := hΓ.node_primitive w
          cases hk.symm.trans hv

/-- A source against a union, when its own parts are related to the union and the source to a
member. -/
theorem fits_union (hn : Γ.store.node t = .union ms)
    (hunion : ∀ xs, Γ.store.node x = .union xs → ∀ y ∈ xs, R y t)
    (hboolean : x = .boolean → ∀ b, R (.ofBool b) t) (hmember : ∃ m ∈ ms, R x m) :
    Fits Γ R x t (Γ.store.node x) (Γ.store.node t) := by
  rw [hn]
  cases hx : Γ.store.node x with
  | union xs => exact hunion xs hx
  | intrinsic k =>
      cases k with
      | boolean => exact ⟨hboolean (eq_boolean hΓ hx) true, hboolean (eq_boolean hΓ hx) false⟩
      | _ => exact .inr hmember
  | _ => exact .inr hmember

/-- A type that a union or an evaluation stands for is assignable to it. -/
theorem assignable_of_choice (h : Choice Γ x t) : Assignable Γ x t := by
  refine ⟨Choice Γ, h, fun x t h => ?_⟩
  cases h with
  | self => exact .inl rfl
  | @member t m ms hn hm hxm =>
      have hxt : Choice Γ x t := .member hn hm hxm
      have hne : t ≠ .never := by
        rintro rfl
        cases not_isFixed_of_union hΓ hn
      refine .inr (unfolds_of_cases hne (fun _ => ?_) fun _ _ => ?_)
      · rw [resolved_of_plain (t := t) (by rw [hn]; rfl)]
        exact (choice_resolved x).trans hΓ hxt
      · apply fits_union hΓ hn _ _ ⟨m, hm, hxm⟩
        · exact fun xs hx y hy => (Choice.member hx hy .self).trans hΓ hxt
        · rintro rfl b
          exact (choice_ofBool hΓ b).trans hΓ hxt
  | resolved hne hxt =>
      have hnever : t ≠ .never := by
        rintro rfl
        exact hne (resolved_of_isFixed hΓ rfl)
      exact .inr (unfolds_of_cases hnever (fun _ => (choice_resolved x).trans hΓ hxt)
        fun _ hr => absurd hr hne)
  | @literal v hv =>
      obtain ⟨k, -, hk⟩ := hΓ.node_primitive v
      have hne : v.primitive ≠ .never := by
        cases v <;> exact nofun
      refine .inr (unfolds_of_cases hne (fun hdiffer => ?_) fun _ _ => ?_)
      · exact absurd ⟨resolved_of_plain (by rw [hv]; rfl), resolved_of_plain (by rw [hk]; rfl)⟩
          hdiffer
      · rw [hv, hk]
        exact ShapeFits.literal rfl

/-- A union is assignable to what all of its members are assignable to. -/
theorem assignable_union_iff (hn : Γ.store.node u = .union ms) (hc : Proper Γ c) :
    Assignable Γ u c ↔ ∀ m ∈ ms, Assignable Γ m c := by
  have hfixed := not_isFixed_of_union hΓ hn
  have hru : Γ.resolved u = u := resolved_of_plain (by rw [hn]; rfl)
  have hproper : Proper Γ u := proper_of_fixed hru (by rintro rfl; cases hfixed)
  constructor
  · intro h m hm
    apply assignable_of_relation (R := fun x y => Converge Γ x m ∧ Converge Γ y c) _
      ⟨.refl m, .refl c⟩
    rintro x y ⟨hx, hy⟩
    have hne : y ≠ .never := (hc.congr hΓ hy.symm).ne_never
    by_cases hsame : Γ.resolved x = x ∧ Γ.resolved y = y
    · have hproper' : Proper Γ y := hc.congr hΓ hy.symm
      have hmy : Assignable Γ m y := by
        have huy : Assignable Γ u y := h.congr hΓ hc (.refl u) hy
        by_cases heq : u = y
        · subst heq
          exact assignable_of_choice hΓ (.member hn hm .self)
        by_cases htop : y = .any ∨ y = .unknown ∨ y = .error
        · exact assignable_of_unfolds (.top htop)
        have hbottom : u ∉ [TypeId.never, .error, .any] := by
          intro hu
          simp only [List.mem_cons, List.not_mem_nil, or_false] at hu
          rcases hu with rfl | rfl | rfl <;> cases hfixed
        have hfits := huy.fits heq hbottom (by simpa using htop) hru hsame.2
        rw [hn] at hfits
        exact hfits m hm
      have hxy := hmy.congr hΓ hproper' hx (.refl y)
      exact (Assignable.consistent x y hxy).imp_right (Unfolds.mono fun _ _ => .inr)
    · exact .inr (unfolds_of_cases hne (fun _ => .inl ⟨hx.resolved_left, hy.resolved_left⟩)
        fun hrx hry => absurd ⟨hrx, hry⟩ hsame)
  · intro h
    apply assignable_of_relation (R := fun x y => x = u ∧ Converge Γ y c) _ ⟨rfl, .refl c⟩
    rintro x y ⟨rfl, hy⟩
    refine .inr (unfolds_of_cases (hc.congr hΓ hy.symm).ne_never (fun _ => ?_) fun _ _ => ?_)
    · exact .inl ⟨hru, hy.resolved_left⟩
    · rw [hn]
      exact fun m hm => .inr ((h m hm).congr hΓ hc (.refl m) hy)

theorem assignable_leaves_iff (hc : Proper Γ c) (ht : t.index < Γ.store.size) :
    Assignable Γ t c ↔ ∀ x ∈ Γ.store.unionLeaves t, Assignable Γ x c := by
  have hleaves := exists_mem_leavesAt (p := fun x => ¬Assignable Γ x c) hΓ Node.unionMembers?_subset
    (fun u ms _ hn => by
      have hnode : Γ.store.node u = .union ms := Node.eq_union_of_members hn
      rw [assignable_union_iff hΓ hnode hc]
      simp) ht (Nat.lt_succ_self _)
  have hiff := not_congr hleaves
  simp only [not_exists, not_and, not_not] at hiff
  exact hiff.symm

theorem assignable_flatLeaves {s : Store} {ts : List TypeId} (hs : s.Formed)
    (hF : s.Extends Γ.store) (hts : ∀ t ∈ ts, t.index < s.size) (hc : Proper Γ c)
    (h : ∀ t ∈ ts, Assignable Γ t c) :
    ∀ x ∈ TypeId.sortUnique s.numbers (ts.flatMap s.unionLeaves), Assignable Γ x c := by
  intro x hx
  obtain ⟨t, ht, hx⟩ := List.mem_flatMap.mp (TypeId.mem_sortUnique.mp hx)
  have hknown := Nat.lt_of_lt_of_le (hts t ht) hF.size_le
  apply (assignable_leaves_iff hΓ hc hknown).mp (h t ht)
  rwa [unionLeaves_eq hF hs (hts t ht)]

/-- What both halves of `boolean` are assignable to. -/
theorem assignable_boolean (h : ∀ b, Assignable Γ (.ofBool b) c) : Assignable Γ .boolean c := by
  have hhalf : ∀ b, Γ.resolved (.ofBool b) = .ofBool b := fun b =>
    resolved_of_isFixed hΓ (by cases b <;> rfl)
  have hspecial : ∀ b, TypeId.ofBool b ∉ [TypeId.never, .error, .any] := by decide
  have hboolean : Γ.resolved .boolean = .boolean := resolved_of_isFixed hΓ rfl
  have hnb : Γ.store.node .boolean = .intrinsic .boolean := hΓ.node_intrinsic .boolean
  apply assignable_of_relation
    (R := fun x y => x = .boolean ∧ ∀ b, Assignable Γ (.ofBool b) y) _ ⟨rfl, h⟩
  rintro x y ⟨rfl, h⟩
  have hproper : Proper Γ y := (h true).proper hΓ (hhalf true) (hspecial true)
  by_cases heq : TypeId.boolean = y
  · exact .inl heq
  by_cases htop : y = .any ∨ y = .unknown ∨ y = .error
  · exact .inr (.top htop)
  refine .inr (unfolds_of_cases hproper.ne_never (fun _ => .inl ⟨hboolean, fun b => ?_⟩)
    fun _ hry => ?_)
  · have hb := (h b).resolved hΓ (hproper 1)
    rwa [hhalf b] at hb
  have hfits : ∀ b, TypeId.ofBool b ≠ y →
      Fits Γ (Assignable Γ) (.ofBool b) y (.literal (.boolean b)) (Γ.store.node y) := by
    intro b hne
    have hfit := (h b).fits hne (hspecial b) (by simpa using htop) (hhalf b) hry
    rwa [hΓ.node_ofBool b] at hfit
  -- one of the halves differs from the target
  obtain ⟨b, hb⟩ : ∃ b, TypeId.ofBool b ≠ y := by
    by_contra hall
    simp only [not_exists, not_not] at hall
    exact absurd ((hall true).trans (hall false).symm) (by decide)
  have hshape : ∀ n, ShapeFits Γ (Assignable Γ) (.ofBool b) y (.literal (.boolean b)) n →
      ShapeFits Γ (fun u v => (u = .boolean ∧ ∀ b, Assignable Γ (.ofBool b) v) ∨ Assignable Γ u v)
        .boolean y (.intrinsic .boolean) n := by
    intro n hn
    cases hn with
    | literal hv => exact absurd hv heq
    | literalInEmpty he => exact .intrinsicInEmpty ⟨he.1, rfl, nofun⟩
  have hb := hfits b hb
  rw [hnb]
  cases hy : Γ.store.node y with
  | union ms => exact ⟨.inr (h true), .inr (h false)⟩
  | intersection ms =>
      intro m hm
      refine .inl ⟨rfl, fun b => ?_⟩
      have hne : TypeId.ofBool b ≠ y := by
        rintro rfl
        cases (hΓ.node_ofBool b).symm.trans hy
      have hfit := hfits b hne
      rw [hy] at hfit
      exact hfit m hm
  | _ =>
      rw [hy] at hb
      exact hshape _ hb

section joined

variable {s s' : Store} {flat : List TypeId} {r : TypeId} (hs : s.Formed)
  (hflat : ∀ x ∈ flat, x.index < s.size) (hF : s.Extends Γ.store)

include hs hflat hF

theorem choice_absorbed (hx : x ∈ flat) (hmem : ∀ y ∈ s.absorbLiterals flat, Choice Γ y r) :
    Choice Γ x r := by
  rcases mem_absorbLiterals hs hx with hx | ⟨v, hv, hprimitive⟩
  · exact hmem x hx
  · have hnode : Γ.store.node x = .literal v := (hF.node_eq x (hflat x hx)).trans hv
    exact (Choice.literal hnode).trans hΓ (hmem _ hprimitive)

omit hs hflat hF in
theorem assignable_absorbed (h : ∀ x ∈ flat, Assignable Γ x c) :
    ∀ x ∈ s.absorbLiterals flat, Assignable Γ x c := by
  intro x hx
  rcases mem_of_mem_absorbLiterals hx with hx | ⟨rfl, htrue, hfalse⟩
  · exact h x hx
  · refine assignable_boolean hΓ fun b => ?_
    cases b with
    | true => exact h _ htrue
    | false => exact h _ hfalse

/-- A union in normal form is above the members that it was made of. -/
theorem assignable_joined (hj : Joined s flat s' r) (hF' : s'.Extends Γ.store)
    (hr : r.index < s'.size) : ∀ x ∈ flat, Assignable Γ x r := by
  intro x hx
  by_cases hnever : x = .never
  · exact assignable_of_unfolds (.bottom (.inl hnever))
  have hrest : x ∈ flat.filter (· ≠ .never) := List.mem_filter.mpr ⟨hx, by simpa using hnever⟩
  have hflat' : ∀ y ∈ flat.filter (· ≠ .never), y.index < s.size := fun y hy =>
    hflat y (List.mem_filter.mp hy).1
  cases hj with
  | error _ => exact assignable_of_unfolds (.top (.inr (.inr rfl)))
  | any _ => exact assignable_of_unfolds (.top (.inl rfl))
  | unknown _ => exact assignable_of_unfolds (.top (.inr (.inl rfl)))
  | never h =>
      rcases mem_absorbLiterals hs hrest with hx | ⟨v, -, hv⟩
      · rw [h] at hx
        cases hx
      · rw [h] at hv
        cases hv
  | single h =>
      refine assignable_of_choice hΓ (choice_absorbed hΓ hs hflat' hF hrest fun y hy => ?_)
      rw [h, List.mem_singleton] at hy
      exact hy ▸ .self
  | union _ _ _ h _ hn =>
      refine assignable_of_choice hΓ (choice_absorbed hΓ hs hflat' hF hrest fun y hy => ?_)
      exact .member ((hF'.node_eq r hr).trans hn) (h ▸ hy) .self

omit hs hflat hF in
/-- A union in normal form is below what is above the members that it was made of. -/
theorem joined_assignable (hj : Joined s flat s' r) (hF' : s'.Extends Γ.store)
    (hr : r.index < s'.size) (hc : Proper Γ c) (h : ∀ x ∈ flat, Assignable Γ x c) :
    Assignable Γ r c := by
  have habsorbed : ∀ x ∈ s.absorbLiterals (flat.filter (· ≠ .never)), Assignable Γ x c :=
    assignable_absorbed hΓ fun x hx => h x (List.mem_filter.mp hx).1
  cases hj with
  | error _ => exact assignable_of_unfolds (.bottom (.inr rfl))
  | any hmem => exact h _ hmem
  | unknown hmem => exact h _ hmem
  | never _ => exact assignable_of_unfolds (.bottom (.inl rfl))
  | single hone => exact habsorbed r (hone ▸ List.mem_singleton_self r)
  | union _ _ _ hall _ hn =>
      rw [assignable_union_iff hΓ ((hF'.node_eq r hr).trans hn) hc]
      exact hall ▸ habsorbed

end joined

end formed

/-- Members that are all assignable to `never` are united to `never` or to the error type. -/
theorem joined_never {s s' : Store} {flat : List TypeId} {r : TypeId} (hj : Joined s flat s' r)
    (h : ∀ x ∈ flat, x = .never ∨ x = .error) : r = .never ∨ r = .error := by
  have habsorbed : ∀ x ∈ s.absorbLiterals (flat.filter (· ≠ .never)), x = .error ∧ x ∈ flat := by
    intro x hx
    rcases mem_of_mem_absorbLiterals hx with hx | ⟨-, htrue, -⟩
    · obtain ⟨hmem, hne⟩ := List.mem_filter.mp hx
      exact ⟨(h x hmem).resolve_left (by simpa using hne), hmem⟩
    · rcases h _ (List.mem_filter.mp htrue).1 with heq | heq <;> cases heq
  cases hj with
  | error _ => exact .inr rfl
  | any hmem | unknown hmem => rcases h _ hmem with heq | heq <;> cases heq
  | never _ => exact .inl rfl
  | single hone => exact .inr (habsorbed r (hone ▸ List.mem_singleton_self r)).1
  | union herror _ _ hall hlen _ =>
      obtain ⟨x, hx⟩ := List.exists_mem_of_length_pos (Nat.lt_of_succ_lt hlen)
      obtain ⟨rfl, hmem⟩ := habsorbed x (hall ▸ hx)
      exact absurd hmem herror

section union

variable {setting : Setting} {s F : Store} {verdict : Bool} {ts : List TypeId}

/-- The union of types in normal form is their least upper bound: a member that is no raw union is
assignable to it, and it is assignable to what all members are assignable to. A target that comes to
`never` without being `never` is left out: it takes nothing that is still to be taken apart. -/
theorem union_least_upper_bound (hs : s.Formed) (hF : F.Formed)
    (henv : setting.environment.Known s) (hts : ∀ t ∈ ts, t.index < s.size) :
    let made := Build.union ts s
    (∀ t ∈ ts, s.unionMembers? t = none ∨ Proper (setting.context F) made.1 →
      Finds setting made.2 F t made.1 verdict → verdict = true) ∧
    (∀ c, c.index < s.size → c = .never ∨ Proper (setting.context F) c →
      (∀ t ∈ ts, Finds setting s F t c true) → Finds setting made.2 F made.1 c verdict →
      verdict = true) := by
  intro made
  obtain ⟨hgrows, hmade, hr, hj⟩ := building_joined hts hs
  have hflat : ∀ x ∈ TypeId.sortUnique s.numbers (ts.flatMap s.unionLeaves), x.index < s.size := by
    refine forall_mem_flatLeaves (p := fun u => u.index < s.size) (fun u ms hu hn m hm => ?_) hts
    exact Nat.lt_trans (hs.descends u hu m (Node.unionMembers?_subset _ _ hn hm)) hu
  have hleaf : ∀ t ∈ ts, ∀ x ∈ s.unionLeaves t,
      x ∈ TypeId.sortUnique s.numbers (ts.flatMap s.unionLeaves) := fun t ht x hx =>
    TypeId.mem_sortUnique.mpr (List.mem_flatMap.mpr ⟨t, ht, hx⟩)
  have henv' : setting.environment.Known made.2 := henv.mono hgrows
  have hlater : ∀ {t : TypeId}, t.index < s.size → t.index < made.2.size := fun ht =>
    Nat.lt_of_lt_of_le ht hgrows.size_le
  constructor
  · intro t ht hwhole h
    have hext : made.2.Extends F := h.extends henv' (hlater (hts t ht)) hr
    have hsF : s.Extends F := hgrows.trans hext
    have hbelow : ∀ x ∈ s.unionLeaves t, Assignable (setting.context F) x made.1 := fun x hx =>
      assignable_joined hF hs hflat hsF hj hext hr x (hleaf t ht x hx)
    rw [h.iff henv' (hlater (hts t ht)) hr]
    rcases hwhole with hsingle | hproper
    · exact hbelow t (by rw [unionLeaves_of_not_union hsingle]; simp)
    · rw [assignable_leaves_iff hF hproper (Nat.lt_of_lt_of_le (hts t ht) hsF.size_le)]
      exact fun x hx => hbelow x (unionLeaves_eq hsF hs (hts t ht) ▸ hx)
  · intro c hc hnever hbelow h
    have hext : made.2.Extends F := h.extends henv' hr (hlater hc)
    have hsF : s.Extends F := hgrows.trans hext
    have hmembers : ∀ t ∈ ts, Assignable (setting.context F) t c := fun t ht =>
      ((hbelow t ht).iff henv (hts t ht) hc).mp rfl
    rw [h.iff henv' hr (hlater hc)]
    rcases hnever with rfl | hproper
    · refine assignable_of_unfolds (.bottom (joined_never hj fun x hx => ?_))
      obtain ⟨t, ht, hx⟩ := List.mem_flatMap.mp (TypeId.mem_sortUnique.mp hx)
      have heq := eq_of_assignable_never (hmembers t ht)
      have hsingle : s.unionMembers? t = none :=
        unionMembers?_fixed hs (by rcases heq with rfl | rfl <;> rfl)
      rw [unionLeaves_of_not_union hsingle, List.mem_singleton] at hx
      exact hx ▸ heq
    · exact joined_assignable hF hj hext hr hproper
        (assignable_flatLeaves hF hs hsF hts hproper hmembers)

end union

end Assignability

end TypeResolution
