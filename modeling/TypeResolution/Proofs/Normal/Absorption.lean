import TypeResolution.Proofs.Normal.Idempotent
import TypeResolution.Proofs.Replay.Normal

/-!
What a union absorbs. A type that is no union joins the members of a union without a change when it
is one of them, when it is empty, when it is a literal beside its primitive, when it is `boolean`
beside both of its literals, or when one of the members absorbs all others. A union absorbs what it
is made of, and is absorbed by it; so the members of a type in normal form are united to that type
again, however they are grouped, as long as what is united absorbs them and is absorbed by them.
-/

namespace TypeResolution

open Store TypeResolution.Normal Replay

/-- A union with the members `ms` does not change when `t`, which is no union, joins them. -/
inductive Absorbs (s : Store) (ms : List TypeId) (t : TypeId) : Prop
  | member : t ∈ ms → Absorbs s ms t
  | never : t = .never → Absorbs s ms t
  | literal {v : Literal} : s.node t = .literal v → v.primitive ∈ ms → Absorbs s ms t
  | boolean : t = .boolean → .trueLiteral ∈ ms → .falseLiteral ∈ ms → Absorbs s ms t
  | error : .error ∈ ms → Absorbs s ms t
  | any : .any ∈ ms → t ≠ .error → Absorbs s ms t
  | unknown : .unknown ∈ ms → t ≠ .error → t ≠ .any → Absorbs s ms t

namespace Absorbs

variable {s s' : Store} {ms us : List TypeId} {t : TypeId}

theorem known_of_literal {v : Literal} (hv : s.node t = .literal v) : t.index < s.size :=
  known_of_node hv (by simp)

/-- What a store says about the types that it knows stays so. -/
theorem mono (h : Absorbs s ms t) (hs : s.Extends s') : Absorbs s' ms t := by
  cases h with
  | literal hv h => exact .literal ((hs.node_eq t (known_of_literal hv)).trans hv) h
  | member h => exact .member h
  | never h => exact .never h
  | boolean h htrue hfalse => exact .boolean h htrue hfalse
  | error h => exact .error h
  | any h hne => exact .any h hne
  | unknown h hne hany => exact .unknown h hne hany

theorem eq_ofBool (hs : s.Formed) {b : Bool} (hv : s.node t = .literal (.boolean b)) :
    t = .ofBool b :=
  hs.eq_of_node_eq (known_of_literal hv) (hs.known_of_isFixed (by cases b <;> rfl))
    (hv.trans (hs.node_ofBool b).symm)

section fixed

variable (hs : s.Formed)

include hs

theorem not_literal_of_primitive {v w : Literal} : s.node v.primitive ≠ .literal w := by
  obtain ⟨k, -, hk⟩ := hs.node_primitive v
  simp [hk]

theorem error_mem (h : Absorbs s ms .error) : .error ∈ ms := by
  have hn : s.node .error = .error := hs.node_fixed (i := 0) (by decide)
  cases h with
  | member h => exact h
  | error h => exact h
  | literal hv _ => cases hn.symm.trans hv
  | never h => cases h
  | boolean h => cases h
  | any _ hne => exact absurd rfl hne
  | unknown _ hne => exact absurd rfl hne

theorem any_mem (h : Absorbs s ms .any) : .error ∈ ms ∨ .any ∈ ms := by
  have hn : s.node .any = .intrinsic .any := hs.node_intrinsic .any
  cases h with
  | member h => exact .inr h
  | error h => exact .inl h
  | any h => exact .inr h
  | literal hv _ => cases hn.symm.trans hv
  | never h => cases h
  | boolean h => cases h
  | unknown _ _ hany => exact absurd rfl hany

theorem unknown_mem (h : Absorbs s ms .unknown) : .error ∈ ms ∨ .any ∈ ms ∨ .unknown ∈ ms := by
  have hn : s.node .unknown = .intrinsic .unknown := hs.node_intrinsic .unknown
  cases h with
  | member h => exact .inr (.inr h)
  | error h => exact .inl h
  | any h => exact .inr (.inl h)
  | unknown h => exact .inr (.inr h)
  | literal hv _ => cases hn.symm.trans hv
  | never h => cases h
  | boolean h => cases h

/-- A half of `boolean` is absorbed by members that absorb the whole and do not consist of it. -/
theorem ofBool (b : Bool) (h : Absorbs s ms .boolean) : Absorbs s ms (.ofBool b) := by
  have hn : s.node .boolean = .intrinsic .boolean := hs.node_intrinsic .boolean
  cases h with
  | member h => exact .literal (hs.node_ofBool b) h
  | never h => cases h
  | literal hv _ => cases hn.symm.trans hv
  | boolean _ htrue hfalse =>
      cases b with
      | true => exact .member htrue
      | false => exact .member hfalse
  | error h => exact .error h
  | any h => exact .any h (by cases b <;> decide)
  | unknown h => exact .unknown h (by cases b <;> decide) (by cases b <;> decide)

/-- Members that absorb the primitive absorb the literal. -/
theorem of_primitive {v : Literal} (hv : s.node t = .literal v) (h : Absorbs s ms v.primitive) :
    Absorbs s ms t := by
  have hne : ∀ {u : TypeId}, (∀ w, s.node u ≠ .literal w) → t ≠ u := fun hu he => hu v (he ▸ hv)
  have herror : t ≠ .error := hne fun w => by
    have hn : s.node .error = .error := hs.node_fixed (i := 0) (by decide)
    simp [hn]
  have hany : t ≠ .any := hne fun w => by
    have hn : s.node .any = .intrinsic .any := hs.node_intrinsic .any
    simp [hn]
  cases h with
  | member h => exact .literal hv h
  | never h => cases v <;> cases h
  | literal hw _ => exact absurd hw (not_literal_of_primitive hs)
  | boolean h htrue hfalse =>
      cases v with
      | boolean b => exact eq_ofBool hs hv ▸ ofBool hs b (.boolean rfl htrue hfalse)
      | string _ => cases h
      | number _ => cases h
  | error h => exact .error h
  | any h => exact .any h herror
  | unknown h => exact .unknown h herror hany

/-- Members that absorb both literals absorb `boolean`. -/
theorem of_halves (htrue : Absorbs s ms .trueLiteral) (hfalse : Absorbs s ms .falseLiteral) :
    Absorbs s ms .boolean := by
  have hprimitive : ∀ {b : Bool} {v : Literal}, s.node (.ofBool b) = .literal v →
      v.primitive ∈ ms → .boolean ∈ ms := by
    intro b v hv h
    cases (hs.node_ofBool b).symm.trans hv
    exact h
  cases htrue with
  | member htrue =>
      cases hfalse with
      | member hfalse => exact .boolean rfl htrue hfalse
      | never h => cases h
      | literal hv h => exact .member (hprimitive (b := false) hv h)
      | boolean h => cases h
      | error h => exact .error h
      | any h => exact .any h (by decide)
      | unknown h => exact .unknown h (by decide) (by decide)
  | never h => cases h
  | literal hv h => exact .member (hprimitive (b := true) hv h)
  | boolean h => cases h
  | error h => exact .error h
  | any h => exact .any h (by decide)
  | unknown h => exact .unknown h (by decide) (by decide)

/-- Who absorbs the members absorbs what they absorb. -/
theorem trans (h : Absorbs s ms t) (hms : ∀ m ∈ ms, Absorbs s us m) : Absorbs s us t := by
  cases h with
  | member h => exact hms t h
  | never h => exact .never h
  | literal hv h => exact of_primitive hs hv (hms _ h)
  | boolean h htrue hfalse => exact h ▸ of_halves hs (hms _ htrue) (hms _ hfalse)
  | error h => exact .error (error_mem hs (hms _ h))
  | any h hne =>
      rcases any_mem hs (hms _ h) with h | h
      · exact .error h
      · exact .any h hne
  | unknown h hne hany =>
      rcases unknown_mem hs (hms _ h) with h | h | h
      · exact .error h
      · exact .any h hne
      · exact .unknown h hne hany

end fixed

end Absorbs

section union

variable {s s' : Store} {ts flat ms : List TypeId} {r : TypeId}

theorem union_of_error (h : .error ∈ TypeId.sortUnique s.numbers (ts.flatMap s.unionLeaves)) :
    Build.union ts s = (.error, s) := by
  unfold Build.union
  simp only [bind, StateT.bind, get, getThe, MonadStateOf.get, StateT.get, pure]
  rw [if_pos (by simpa using h)]
  rfl

theorem union_of_any (herror : .error ∉ TypeId.sortUnique s.numbers (ts.flatMap s.unionLeaves))
    (h : .any ∈ TypeId.sortUnique s.numbers (ts.flatMap s.unionLeaves)) : Build.union ts s = (.any, s) := by
  unfold Build.union
  simp only [bind, StateT.bind, get, getThe, MonadStateOf.get, StateT.get, pure]
  rw [if_neg (by simpa using herror), if_pos (by simpa using h)]
  rfl

theorem union_of_unknown (herror : .error ∉ TypeId.sortUnique s.numbers (ts.flatMap s.unionLeaves))
    (hany : .any ∉ TypeId.sortUnique s.numbers (ts.flatMap s.unionLeaves))
    (h : .unknown ∈ TypeId.sortUnique s.numbers (ts.flatMap s.unionLeaves)) :
    Build.union ts s = (.unknown, s) := by
  unfold Build.union
  simp only [bind, StateT.bind, get, getThe, MonadStateOf.get, StateT.get, pure]
  rw [if_neg (by simpa using herror), if_neg (by simpa using hany), if_pos (by simpa using h)]
  rfl

theorem union_of_plain (herror : .error ∉ TypeId.sortUnique s.numbers (ts.flatMap s.unionLeaves))
    (hany : .any ∉ TypeId.sortUnique s.numbers (ts.flatMap s.unionLeaves))
    (hunknown : .unknown ∉ TypeId.sortUnique s.numbers (ts.flatMap s.unionLeaves)) :
    Build.union ts s =
      match s.absorbLiterals
        ((TypeId.sortUnique s.numbers (ts.flatMap s.unionLeaves)).filter (· ≠ .never)) with
      | [] => (.never, s)
      | [t] => (t, s)
      | us => s.intern (.union us) := by
  unfold Build.union
  simp only [bind, StateT.bind, get, getThe, MonadStateOf.get, StateT.get, pure]
  rw [if_neg (by simpa using herror), if_neg (by simpa using hany),
    if_neg (by simpa using hunknown)]
  generalize s.absorbLiterals
    ((TypeId.sortUnique s.numbers (ts.flatMap s.unionLeaves)).filter (· ≠ .never)) = us
  match us with
  | [] => rfl
  | [_] => rfl
  | _ :: _ :: _ => rfl

/-- What a union is made of, in a store that knows it, are types that are no unions. -/
theorem flatLeaves_known (hs : s.Formed) (hts : ∀ t ∈ ts, t.index < s.size) :
    ∀ l ∈ TypeId.sortUnique s.numbers (ts.flatMap s.unionLeaves),
      l.index < s.size ∧ s.unionMembers? l = none := by
  refine fun l hl => ⟨?_, flatLeaves_flat hs Node.unionMembers?_subset hts l hl⟩
  refine forall_mem_flatLeaves (p := fun u => u.index < s.size) (fun u ms hu hn m hm => ?_) hts l hl
  exact Nat.lt_trans (hs.descends u hu m (Node.unionMembers?_subset _ _ hn hm)) hu

theorem absorbLiterals_known (hs : s.Formed)
    (hflat : ∀ l ∈ flat, l.index < s.size ∧ s.unionMembers? l = none) :
    ∀ m ∈ s.absorbLiterals (flat.filter (· ≠ .never)),
      m.index < s.size ∧ s.unionMembers? m = none := by
  intro m hm
  rcases mem_of_mem_absorbLiterals hm with hm | ⟨rfl, -, -⟩
  · exact hflat m (List.mem_filter.mp hm).1
  · exact ⟨hs.known_of_isFixed rfl, unionMembers?_intrinsic hs .boolean⟩

/-- What is left when literals fall into their primitives absorbs all members. -/
theorem absorbs_absorbLiterals (hs : s.Formed) {l : TypeId} (hl : l ∈ flat) :
    Absorbs s (s.absorbLiterals (flat.filter (· ≠ .never))) l := by
  by_cases hnever : l = .never
  · exact .never hnever
  · have hmem : l ∈ flat.filter (· ≠ .never) := List.mem_filter.mpr ⟨hl, by simpa using hnever⟩
    rcases mem_absorbLiterals hs hmem with h | ⟨v, hv, h⟩
    · exact .member h
    · exact .literal hv h

theorem absorbs_of_mem_absorbLiterals {l : TypeId}
    (hl : l ∈ s.absorbLiterals (flat.filter (· ≠ .never))) : Absorbs s flat l := by
  have hmem : ∀ {m}, m ∈ flat.filter (· ≠ .never) → m ∈ flat := fun h => (List.mem_filter.mp h).1
  rcases mem_of_mem_absorbLiterals hl with h | ⟨h, htrue, hfalse⟩
  · exact .member (hmem h)
  · exact .boolean h (hmem htrue) (hmem hfalse)

/-- A union absorbs what it is made of, and what it is made of absorbs it. -/
theorem building_absorbs (hts : ∀ t ∈ ts, t.index < s.size) :
    building.Holds s (Build.union ts) fun s' r => r.index < s'.size ∧
      (∀ l ∈ ts.flatMap s.unionLeaves, Absorbs s' (s'.unionLeaves r) l) ∧
      ∀ l ∈ s'.unionLeaves r, Absorbs s' (ts.flatMap s.unionLeaves) l := by
  intro hs
  have hmem : ∀ l, l ∈ TypeId.sortUnique s.numbers (ts.flatMap s.unionLeaves) ↔
      l ∈ ts.flatMap s.unionLeaves := fun l => TypeId.mem_sortUnique
  have hflat := flatLeaves_known hs hts
  have hfixed : ∀ k : Intrinsic, k.typeId.index < s.size ∧ s.unionLeaves k.typeId = [k.typeId] :=
    fun k => ⟨hs.known_of_isFixed (by cases k <;> rfl),
      unionLeaves_of_not_union (unionMembers?_intrinsic hs k)⟩
  by_cases herror : .error ∈ TypeId.sortUnique s.numbers (ts.flatMap s.unionLeaves)
  · have hleaves : s.unionLeaves .error = [.error] := by
      have hn : s.node .error = .error := hs.node_fixed (i := 0) (by decide)
      exact unionLeaves_of_not_union (by rw [hn]; rfl)
    rw [union_of_error herror]
    refine ⟨.refl s, hs, hs.known_of_isFixed rfl, fun l _ => ?_, fun l hl => ?_⟩
    · exact .error (by simp [hleaves])
    · exact .error ((hmem _).mp herror)
  by_cases hany : .any ∈ TypeId.sortUnique s.numbers (ts.flatMap s.unionLeaves)
  · obtain ⟨hknown, hleaves⟩ := hfixed .any
    rw [union_of_any herror hany]
    refine ⟨.refl s, hs, hknown, fun l hl => ?_, fun l hl => ?_⟩
    · refine .any (hleaves ▸ List.mem_singleton_self _) fun he => herror ?_
      exact (hmem _).mpr (he ▸ hl)
    · exact .member ((hmem l).mp (List.mem_singleton.mp (hleaves ▸ hl) ▸ hany))
  by_cases hunknown : .unknown ∈ TypeId.sortUnique s.numbers (ts.flatMap s.unionLeaves)
  · obtain ⟨hknown, hleaves⟩ := hfixed .unknown
    rw [union_of_unknown herror hany hunknown]
    refine ⟨.refl s, hs, hknown, fun l hl => ?_, fun l hl => ?_⟩
    · refine .unknown (hleaves ▸ List.mem_singleton_self _) (fun he => herror ?_) fun he => hany ?_
      · exact (hmem _).mpr (he ▸ hl)
      · exact (hmem _).mpr (he ▸ hl)
    · exact .member ((hmem l).mp (List.mem_singleton.mp (hleaves ▸ hl) ▸ hunknown))
  have hleft := absorbLiterals_known hs hflat
  have hforth : ∀ l ∈ ts.flatMap s.unionLeaves, Absorbs s (s.absorbLiterals
      ((TypeId.sortUnique s.numbers (ts.flatMap s.unionLeaves)).filter (· ≠ .never))) l :=
    fun l hl => absorbs_absorbLiterals hs ((hmem l).mpr hl)
  have hback : ∀ l ∈ s.absorbLiterals
      ((TypeId.sortUnique s.numbers (ts.flatMap s.unionLeaves)).filter (· ≠ .never)),
      Absorbs s (ts.flatMap s.unionLeaves) l := fun l hl =>
    (absorbs_of_mem_absorbLiterals hl).trans hs fun m hm => .member ((hmem m).mp hm)
  rw [union_of_plain herror hany hunknown]
  generalize s.absorbLiterals
    ((TypeId.sortUnique s.numbers (ts.flatMap s.unionLeaves)).filter (· ≠ .never)) = us at hleft hforth hback
  match us with
  | [] =>
      obtain ⟨hknown, hleaves⟩ := hfixed .never
      refine ⟨.refl s, hs, hknown, fun l hl => (hforth l hl).trans hs (by simp), fun l hl => ?_⟩
      exact .never (List.mem_singleton.mp (hleaves ▸ hl))
  | [r] =>
      obtain ⟨hknown, hunion⟩ := hleft r (by simp)
      have hleaves : s.unionLeaves r = [r] := unionLeaves_of_not_union hunion
      exact ⟨.refl s, hs, hknown, hleaves.symm ▸ hforth, hleaves.symm ▸ hback⟩
  | m :: u :: rest =>
      obtain ⟨hgrows, hformed, hknown, hn⟩ :=
        building_node (n := .union (m :: u :: rest)) (fun c hc => (hleft c hc).1) (by simp) hs
      have hr : Build.intern (.union (m :: u :: rest)) s = s.intern (.union (m :: u :: rest)) := rfl
      rw [hr] at hgrows hformed hknown hn
      have hmembers : (s.intern (.union (m :: u :: rest))).2.unionMembers
          (s.intern (.union (m :: u :: rest))).1 = m :: u :: rest := by
        rw [unionMembers, hn]
        rfl
      have hisFlat : (s.intern (.union (m :: u :: rest))).2.IsFlat
          (s.intern (.union (m :: u :: rest))).1 := by
        intro l hl
        obtain ⟨hlt, hunion⟩ := hleft l (hmembers ▸ hl)
        rw [unionMembers?, hgrows.node_eq l hlt]
        exact hunion
      have hleaves := hisFlat.mem_unionLeaves.trans hmembers
      refine ⟨hgrows, hformed, hknown, fun l hl => ?_, fun l hl => ?_⟩
      · exact hleaves.symm ▸ (hforth l hl).mono hgrows
      · exact (hback l (hleaves ▸ hl)).mono hgrows

end union

section form

variable {s : Store} {ts ms us flat : List TypeId} {r : TypeId}

theorem Normal.JoinForm.subset_of_absorbs (hs : s.Formed) (hms : JoinForm s ms)
    (hus : JoinForm s us) (hforth : ∀ m ∈ ms, Absorbs s us m)
    (hback : ∀ u ∈ us, Absorbs s ms u) : ∀ m ∈ ms, m ∈ us := by
  intro m hm
  cases hforth m hm with
  | member h => exact h
  | never h => exact absurd h (hms.plain m hm).2.2.2
  | @literal v hv h =>
      -- the primitive would have to be among the members that the literal is one of
      cases hback _ h with
      | member h => exact absurd h (hms.absorbed m hm v hv)
      | never h => cases v <;> cases h
      | literal hw _ => exact absurd hw (Absorbs.not_literal_of_primitive hs)
      | boolean _ htrue hfalse => exact absurd hfalse (hms.not_both htrue)
      | error h => exact absurd rfl (hms.plain _ h).1
      | any h => exact absurd rfl (hms.plain _ h).2.1
      | unknown h => exact absurd rfl (hms.plain _ h).2.2.1
  | boolean _ htrue hfalse => exact absurd hfalse (hus.not_both htrue)
  | error h => exact absurd rfl (hus.plain _ h).1
  | any h => exact absurd rfl (hus.plain _ h).2.1
  | unknown h => exact absurd rfl (hus.plain _ h).2.2.1

/-- Members that no rule applies to are determined by what absorbs them and what they absorb. -/
theorem Normal.JoinForm.eq_of_absorbs (hs : s.Formed) (hms : JoinForm s ms) (hus : JoinForm s us)
    (hmsSorted : s.InOrder ms) (husSorted : s.InOrder us)
    (hforth : ∀ m ∈ ms, Absorbs s us m) (hback : ∀ u ∈ us, Absorbs s ms u) : ms = us :=
  TypeId.eq_of_sorted hmsSorted husSorted fun t =>
    ⟨hms.subset_of_absorbs hs hus hforth hback t, hus.subset_of_absorbs hs hms hback hforth t⟩

/-- What is left of members that absorb those in `ms` and are absorbed by them, once literals fall
into their primitives, are those in `ms`. -/
theorem absorbLiterals_eq_of_absorbs (hs : s.Formed) (hms : JoinForm s ms)
    (hsorted : s.InOrder ms) (hflatSorted : s.InOrder flat)
    (hflat : ∀ l ∈ flat, s.unionMembers? l = none)
    (herror : .error ∉ flat) (hany : .any ∉ flat) (hunknown : .unknown ∉ flat)
    (back : ∀ l ∈ flat, Absorbs s ms l) (cover : ∀ m ∈ ms, Absorbs s flat m) :
    s.absorbLiterals (flat.filter (· ≠ .never)) = ms := by
  refine (joinForm_absorbLiterals hs hflat herror hany hunknown).eq_of_absorbs hs hms
    (sorted_absorbLiterals (hflatSorted.filter _)) hsorted (fun l hl => ?_) fun m hm => ?_
  · exact (absorbs_of_mem_absorbLiterals hl).trans hs back
  · exact (cover m hm).trans hs fun l hl => absorbs_absorbLiterals hs hl

theorem Normal.JoinForm.single (hunion : s.unionMembers? r = none)
    (hplain : r ≠ .error ∧ r ≠ .any ∧ r ≠ .unknown ∧ r ≠ .never) (hs : s.Formed) :
    JoinForm s [r] where
  flat m hm := List.mem_singleton.mp hm ▸ hunion
  plain := by simpa using hplain
  absorbed m hm v hv hp := by
    rw [List.mem_singleton.mp hm] at hv
    exact Absorbs.not_literal_of_primitive hs (List.mem_singleton.mp hp ▸ hv)
  not_both htrue hfalse := by
    cases (List.mem_singleton.mp htrue).trans (List.mem_singleton.mp hfalse).symm

/-- The members of a union in normal form. -/
def InUnionForm (s : Store) (t : TypeId) : Prop :=
  ∀ ms, s.node t = .union ms → (Node.union ms).InForm s

namespace InUnionForm

theorem of_not_union {s : Store} {r : TypeId} (h : (s.node r).unionMembers? = none) :
    InUnionForm s r := by
  intro ms hn
  rw [hn] at h
  cases h

theorem isFlat (h : InUnionForm s r) : s.IsFlat r := by
  intro m hm
  cases hn : s.unionMembers? r with
  | none => exact isFlat_of_not_union hn m hm
  | some ms =>
      have hform := h ms (node_of_unionMembers? hn)
      rw [unionMembers, show (s.node r).unionMembers? = some ms from hn] at hm
      exact hform.2.2.flat m hm

theorem leaves_eq (h : InUnionForm s r) {ms : List TypeId} (hn : s.node r = .union ms) :
    s.unionLeaves r = ms := by
  rw [h.isFlat.mem_unionLeaves, unionMembers, hn]
  rfl

/-- A leaf that absorbs all others, or is empty, is alone. -/
theorem eq_of_mem_leaves (h : InUnionForm s r) {l : TypeId} (hl : l ∈ s.unionLeaves r)
    (htop : l = .error ∨ l = .any ∨ l = .unknown ∨ l = .never) : r = l := by
  cases hn : s.unionMembers? r with
  | none => exact (List.mem_singleton.mp (unionLeaves_of_not_union hn ▸ hl)).symm
  | some ms =>
      have hn := node_of_unionMembers? hn
      obtain ⟨herror, hany, hunknown, hnever⟩ := (h ms hn).2.2.plain l (h.leaves_eq hn ▸ hl)
      rcases htop with he | he | he | he
      · exact absurd he herror
      · exact absurd he hany
      · exact absurd he hunknown
      · exact absurd he hnever

end InUnionForm

/-- Members to which no rule applies, and to which those in `ms` come down: no member if there is
only `never`, otherwise all. -/
theorem exists_joinForm (hs : s.Formed) (hr : r.index < s.size) (hform : InUnionForm s r)
    (htop : r ≠ .error ∧ r ≠ .any ∧ r ≠ .unknown) :
    ∃ ms, JoinForm s ms ∧ s.InOrder ms ∧ (∀ l ∈ s.unionLeaves r, Absorbs s ms l) ∧
      (∀ m ∈ ms, m ∈ s.unionLeaves r) ∧
      (match ms with
        | [] => (.never, s)
        | [t] => (t, s)
        | us => s.intern (.union us)) = (r, s) := by
  cases hn : s.unionMembers? r with
  | some ms =>
      have hnode := node_of_unionMembers? hn
      obtain ⟨hmany, hsorted, hjoin⟩ := hform ms hnode
      have hleaves := hform.leaves_eq hnode
      refine ⟨ms, hjoin, hsorted, fun l hl => .member (hleaves ▸ hl), fun m hm => hleaves ▸ hm, ?_⟩
      obtain ⟨m, u, rest, rfl⟩ := exists_cons_cons hmany
      exact hs.intern_node hr hnode
  | none =>
      have hleaves : s.unionLeaves r = [r] := unionLeaves_of_not_union hn
      by_cases hnever : r = .never
      · have hempty : JoinForm s [] := ⟨by simp, by simp, by simp, by simp⟩
        refine ⟨[], hempty, .nil, fun l hl => ?_, by simp, by rw [hnever]⟩
        exact .never (hnever ▸ List.mem_singleton.mp (hleaves ▸ hl))
      · have hsingle := JoinForm.single hn ⟨htop.1, htop.2.1, htop.2.2, hnever⟩ hs
        exact ⟨[r], hsingle, List.pairwise_singleton _ _, fun l hl => .member (hleaves ▸ hl),
          fun m hm => hleaves ▸ hm, rfl⟩

/-- However the members of a union in normal form are grouped, they are united to it again, as long
as what is united absorbs them and is absorbed by them. -/
theorem union_eq_of_absorbs (hs : s.Formed) (hr : r.index < s.size) (hform : InUnionForm s r)
    (hts : ∀ t ∈ ts, t.index < s.size)
    (back : ∀ l ∈ ts.flatMap s.unionLeaves, Absorbs s (s.unionLeaves r) l)
    (cover : ∀ m ∈ s.unionLeaves r, Absorbs s (ts.flatMap s.unionLeaves) m) :
    Build.union ts s = (r, s) := by
  have hmem : ∀ l, l ∈ TypeId.sortUnique s.numbers (ts.flatMap s.unionLeaves) ↔
      l ∈ ts.flatMap s.unionLeaves := fun l => TypeId.mem_sortUnique
  have hflat := fun l hl => (flatLeaves_known hs hts l hl).2
  have hsorted : s.InOrder (TypeId.sortUnique s.numbers (ts.flatMap s.unionLeaves)) :=
    TypeId.sorted_sortUnique _
  replace back := fun l hl => back l ((hmem l).mp hl)
  replace cover := fun m hm => (cover m hm).trans hs fun l hl => .member ((hmem l).mpr hl)
  have hself : ∀ {k : TypeId}, r = k → s.unionMembers? k = none → k ∈ s.unionLeaves r := by
    rintro k rfl hk
    exact unionLeaves_of_not_union hk ▸ List.mem_singleton_self r
  by_cases herror : .error ∈ TypeId.sortUnique s.numbers (ts.flatMap s.unionLeaves)
  · rw [union_of_error herror, hform.eq_of_mem_leaves ((back _ herror).error_mem hs) (.inl rfl)]
  have hrError : r ≠ .error := fun he =>
    herror ((cover _ (hself he (unionMembers?_fixed hs rfl))).error_mem hs)
  by_cases hany : .any ∈ TypeId.sortUnique s.numbers (ts.flatMap s.unionLeaves)
  · rw [union_of_any herror hany]
    rcases (back _ hany).any_mem hs with h | h
    · exact absurd (hform.eq_of_mem_leaves h (by simp)) hrError
    · rw [hform.eq_of_mem_leaves h (by simp)]
  have hrAny : r ≠ .any := fun he => by
    have h := (cover _ (hself he (unionMembers?_intrinsic hs .any))).any_mem hs
    exact h.elim herror hany
  by_cases hunknown : .unknown ∈ TypeId.sortUnique s.numbers (ts.flatMap s.unionLeaves)
  · rw [union_of_unknown herror hany hunknown]
    rcases (back _ hunknown).unknown_mem hs with h | h | h
    · exact absurd (hform.eq_of_mem_leaves h (by simp)) hrError
    · exact absurd (hform.eq_of_mem_leaves h (by simp)) hrAny
    · rw [hform.eq_of_mem_leaves h (by simp)]
  have hrUnknown : r ≠ .unknown := fun he => by
    have h := (cover _ (hself he (unionMembers?_intrinsic hs .unknown))).unknown_mem hs
    exact h.elim herror (·.elim hany hunknown)
  obtain ⟨ms, hms, hmsSorted, hforth, hsub, hresult⟩ :=
    exists_joinForm hs hr hform ⟨hrError, hrAny, hrUnknown⟩
  rw [union_of_plain herror hany hunknown,
    absorbLiterals_eq_of_absorbs hs hms hmsSorted hsorted hflat herror hany hunknown
      (fun l hl => (back l hl).trans hs hforth) fun m hm => cover m (hsub m hm)]
  exact hresult

/-- What is united is in normal form. -/
theorem building_inUnionForm {ts : List TypeId} (hts : ∀ t ∈ ts, t.index < s.size) :
    building.Holds s (Build.union ts) fun s' r => InUnionForm s' r := by
  refine building.formed fun hs => building.mono (building_joined hts) fun s' r h hs' hr ms hn => ?_
  obtain ⟨-, hr⟩ := hr
  have hflat := flatLeaves_known hs hts
  have hsorted : s.InOrder (TypeId.sortUnique s.numbers (ts.flatMap s.unionLeaves)) :=
    TypeId.sorted_sortUnique _
  generalize TypeId.sortUnique s.numbers (ts.flatMap s.unionLeaves) = flat at hr hflat hsorted
  have hleft := absorbLiterals_known hs hflat
  have hfixed : ∀ {k : TypeId}, k.isFixed → s'.node k ≠ .union ms := by
    intro k hk
    exact unionMembers?_eq_none_iff.mp (unionMembers?_fixed hs' hk) ms
  cases hr with
  | error _ | any _ | unknown _ | never _ => exact absurd hn (hfixed rfl)
  | single hone =>
      obtain ⟨hknown, hunion⟩ := hleft r (hone ▸ List.mem_singleton_self r)
      rw [unionMembers?, ← h.node_eq r hknown, hn] at hunion
      cases hunion
  | @union _ us herror hany hunknown hus hmany hnode =>
      cases hn.symm.trans hnode
      subst hus
      have hform := joinForm_absorbLiterals hs (fun l hl => (hflat l hl).2) herror hany hunknown
      exact ⟨hmany, .congr (sorted_absorbLiterals (hsorted.filter _)) h.numbers_eq,
        hform.congr fun m hm => h.node_eq m (hleft m hm).1⟩

theorem InUnionForm.congr {s' : Store} (h : InUnionForm s r) (hnumbers : s'.numbers = s.numbers)
    (hnode : s'.node r = s.node r)
    (hparts : ∀ c ∈ (s.node r).components, s'.node c = s.node c) : InUnionForm s' r := by
  intro ms hn
  rw [hnode] at hn
  rw [hn] at hparts
  obtain ⟨hmany, hsorted, hform⟩ := h ms hn
  exact ⟨hmany, hsorted.congr hnumbers, hform.congr hparts⟩

/-- Whether a known type is in normal form is the same in every later store. -/
theorem InUnionForm.iff_of_extends {s' : Store} (hext : s.Extends s') (hr : s.Closed AnyName r) :
    InUnionForm s' r ↔ InUnionForm s r := by
  have hnode := hr.node_eq hext
  have hparts : ∀ c ∈ (s.node r).components, s'.node c = s.node c := fun c hc =>
    (hr.of_mem_components rfl hc).node_eq hext
  refine ⟨fun h => h.congr hext.numbers_eq.symm hnode.symm fun c hc => ?_,
    fun h => h.congr hext.numbers_eq hnode hparts⟩
  rw [hnode] at hc
  exact (hparts c hc).symm

/-- Nothing is remembered when normalizing starts, so a union is united anew. -/
theorem normalize_of_union {t : TypeId} (hs : s.Formed) (hn : s.node t = .union ms)
    (site : Option SourceTag) (ds : Array Diagnostic) :
    (Reporting.normalize site t ds s).1.1 =
      let members := ms.mapM (normalizeAt (maxDepth - 1) site) ∅ ds s
      (Build.union members.1.1.1 members.2).1 := by
  have hfixed : ¬ t.isFixed := fun h =>
    unionMembers?_eq_none_iff.mp (unionMembers?_fixed hs h) ms hn
  have hrun : normalizeAt maxDepth site t ∅ = (do
      let n ← Build.node t
      let result ← normalizeNode (normalizeAt (maxDepth - 1)) site t n
      remember t result
      return result : Normalizing TypeId) ∅ := by
    conv_lhs => unfold maxDepth normalizeAt
    rw [if_neg hfixed]
    have hget : ∀ f : Std.HashMap TypeId TypeId → Normalizing TypeId, (get >>= f) ∅ = f ∅ ∅ :=
      fun _ => rfl
    rw [hget]
    simp only [Std.HashMap.getElem?_empty]
    rfl
  have h : (Reporting.normalize site t ds s).1.1 = (normalizeAt maxDepth site t ∅ ds s).1.1.1 := rfl
  rw [h, hrun]
  change (normalizeNode (normalizeAt (maxDepth - 1)) site t (s.node t) ∅ ds s).1.1.1 = _
  rw [hn]
  rfl

/-- A union that normalizing gives back is in normal form. -/
theorem inUnionForm_of_normalize {r : TypeId} (hs : s.Formed) (hr : r.index < s.size)
    {site : Option SourceTag} {ds : Array Diagnostic}
    (h : (Reporting.normalize site r ds s).1.1 = r) : InUnionForm s r := by
  intro ms hn
  have hclosed : s.Closed AnyName r := hs.closed_of_known hr
  have hmembers : Follows (.free AnyName) s (ms.mapM (normalizeAt (maxDepth - 1) site))
      (ms.mapM (normalizeAt (maxDepth - 1) site)) := follows_mapM fun m hm s₁ h₁ =>
    follows_normalizeAt (fun _ => rfl) (h₁.closed (hclosed.of_mem_components hn hm))
  have hrun := hmembers ∅ ∅ .empty ds ds (fun _ => rfl) hs
  have hknown := (hrun.beside s (.refl s)).2.1.1.2
  rw [normalize_of_union hs hn] at h
  obtain ⟨hgrows, -, hform⟩ := building_inUnionForm (fun t ht => (hknown t ht).known) hrun.formed
  rw [h] at hform
  exact (InUnionForm.iff_of_extends (hrun.grows.trans hgrows) hclosed).mp hform ms hn

end form

end TypeResolution
