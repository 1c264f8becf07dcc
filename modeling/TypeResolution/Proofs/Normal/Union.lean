import TypeResolution.Proofs.Outcomes
import TypeResolution.Proofs.Replay.Mirror

/-!
How the members of a union are collected: nested unions are taken apart, and literals fall into
their primitives. What holds of some member is kept by both.
-/

namespace TypeResolution

namespace Store

section leaves

variable {s : Store} {parts : Node → Option (List TypeId)} {p : TypeId → Prop} {fuel : Nat}
  {t : TypeId}

theorem forall_mem_leavesAt
    (h : ∀ u members, p u → parts (s.node u) = some members → ∀ m ∈ members, p m) (ht : p t) :
    ∀ l ∈ s.leavesAt parts fuel t, p l := by
  induction fuel generalizing t with
  | zero => simpa [leavesAt] using ht
  | succ fuel ih =>
      unfold leavesAt
      split
      · rename_i members hn
        intro l hl
        obtain ⟨m, hm, hl⟩ := List.mem_flatMap.mp hl
        exact ih (h t members ht hn m hm) l hl
      · simpa using ht

theorem forall_mem_flatLeaves {ts : List TypeId}
    (h : ∀ u members, p u → parts (s.node u) = some members → ∀ m ∈ members, p m)
    (hts : ∀ t ∈ ts, p t) : ∀ l ∈ TypeId.sortUnique s.numbers (ts.flatMap (s.leaves parts)), p l := by
  intro l hl
  obtain ⟨t, ht, hl⟩ := List.mem_flatMap.mp (TypeId.mem_sortUnique.mp hl)
  exact forall_mem_leavesAt h (hts t ht) l hl

theorem leavesAt_of_none (h : parts (s.node t) = none) : s.leavesAt parts fuel t = [t] := by
  cases fuel with
  | zero => rfl
  | succ fuel => simp only [leavesAt, h]

theorem flatMap_leaves_of_flat {ms : List TypeId} (h : ∀ m ∈ ms, parts (s.node m) = none) :
    ms.flatMap (s.leaves parts) = ms := by
  have hleaf : ∀ m ∈ ms, s.leaves parts m = [m] := fun m hm => leavesAt_of_none (h m hm)
  rw [List.flatMap_congr hleaf, List.flatMap_singleton']

theorem leaves_of_flat {ms : List TypeId} (hn : parts (s.node t) = some ms)
    (h : ∀ m ∈ ms, parts (s.node m) = none) : s.leaves parts t = ms := by
  have hleaf : ∀ m ∈ ms, s.leavesAt parts t.index m = [m] := fun m hm => leavesAt_of_none (h m hm)
  simp only [leaves, leavesAt, hn]
  rw [List.flatMap_congr hleaf, List.flatMap_singleton']

variable (hs : s.Formed) (hparts : ∀ n members, parts n = some members → members ⊆ n.components)

include hs hparts

theorem leavesAt_flat (ht : t.index < s.size) (hfuel : t.index < fuel) :
    ∀ l ∈ s.leavesAt parts fuel t, parts (s.node l) = none := by
  induction fuel generalizing t with
  | zero => omega
  | succ fuel ih =>
      unfold leavesAt
      split
      · rename_i members hn
        intro l hl
        obtain ⟨m, hm, hl⟩ := List.mem_flatMap.mp hl
        have hlt := hs.descends t ht m (hparts _ _ hn hm)
        exact ih (by omega) (by omega) l hl
      · simpa using ‹_›

theorem flatLeaves_flat {ts : List TypeId} (hts : ∀ t ∈ ts, t.index < s.size) :
    ∀ l ∈ TypeId.sortUnique s.numbers (ts.flatMap (s.leaves parts)), parts (s.node l) = none := by
  intro l hl
  obtain ⟨t, ht, hl⟩ := List.mem_flatMap.mp (TypeId.mem_sortUnique.mp hl)
  exact leavesAt_flat hs hparts (hts t ht) (Nat.lt_succ_self _) l hl

theorem exists_mem_leavesAt
    (h : ∀ u members, u.index < s.size → parts (s.node u) = some members →
      ((∃ m ∈ members, p m) ↔ p u))
    (ht : t.index < s.size) (hfuel : t.index < fuel) :
    (∃ l ∈ s.leavesAt parts fuel t, p l) ↔ p t := by
  induction fuel generalizing t with
  | zero => omega
  | succ fuel ih =>
      unfold leavesAt
      split
      · rename_i members hn
        have hmembers : ∀ m ∈ members, ((∃ l ∈ s.leavesAt parts fuel m, p l) ↔ p m) := by
          intro m hm
          have hlt := hs.descends t ht m (hparts _ _ hn hm)
          exact ih (by omega) (by omega)
        rw [← h t members ht hn]
        simp only [List.mem_flatMap]
        constructor
        · rintro ⟨l, ⟨m, hm, hl⟩, hp⟩
          exact ⟨m, hm, (hmembers m hm).mp ⟨l, hl, hp⟩⟩
        · rintro ⟨m, hm, hp⟩
          obtain ⟨l, hl, hp⟩ := (hmembers m hm).mpr hp
          exact ⟨l, ⟨m, hm, hl⟩, hp⟩
      · simp

theorem exists_mem_flatLeaves {ts : List TypeId}
    (h : ∀ u members, u.index < s.size → parts (s.node u) = some members →
      ((∃ m ∈ members, p m) ↔ p u))
    (hts : ∀ t ∈ ts, t.index < s.size) :
    (∃ l ∈ TypeId.sortUnique s.numbers (ts.flatMap (s.leaves parts)), p l) ↔ ∃ t ∈ ts, p t := by
  have hleaves : ∀ t ∈ ts, ((∃ l ∈ s.leaves parts t, p l) ↔ p t) := fun t ht =>
    exists_mem_leavesAt hs hparts h (hts t ht) (Nat.lt_succ_self _)
  simp only [TypeId.mem_sortUnique, List.mem_flatMap]
  constructor
  · rintro ⟨l, ⟨t, ht, hl⟩, hp⟩
    exact ⟨t, ht, (hleaves t ht).mp ⟨l, hl, hp⟩⟩
  · rintro ⟨t, ht, hp⟩
    obtain ⟨l, hl, hp⟩ := (hleaves t ht).mpr hp
    exact ⟨l, ⟨t, ht, hl⟩, hp⟩

end leaves

section members

variable {s s' : Store} {t : TypeId}

theorem unionLeaves_eq (h : s.Extends s') (hs : s.Formed) (ht : t.index < s.size) :
    s'.unionLeaves t = s.unionLeaves t :=
  leavesAt_eq h Node.unionMembers?_subset (hs.closed_of_known ht)

theorem unionLeaves_of_not_union (h : (s.node t).unionMembers? = none) : s.unionLeaves t = [t] :=
  leavesAt_of_none h

theorem intersectionLeaves_of_not_intersection (h : (s.node t).intersectionMembers? = none) :
    s.intersectionLeaves t = [t] :=
  leavesAt_of_none h

theorem unionMembers_of_not_union (h : s.unionMembers? t = none) : s.unionMembers t = [t] := by
  unfold unionMembers
  rw [show (s.node t).unionMembers? = none from h]
  rfl

theorem unionMembers?_fixed (hs : s.Formed) (ht : t.isFixed) :
    s.unionMembers? t = none := by
  obtain ⟨i⟩ := t
  have hi : i < TypeId.fixedCount := by simpa [TypeId.isFixed] using ht
  unfold unionMembers?
  rw [hs.node_fixed hi]
  have hi : i < 12 := hi
  interval_cases i <;> rfl

/-- A union that has been taken apart: its members are no unions. -/
def IsFlat (s : Store) (t : TypeId) : Prop := ∀ m ∈ s.unionMembers t, s.unionMembers? m = none

theorem isFlat_of_not_union (h : s.unionMembers? t = none) : s.IsFlat t := by
  intro m hm
  rw [unionMembers_of_not_union h, List.mem_singleton] at hm
  exact hm ▸ h

theorem IsFlat.mem_unionLeaves (h : s.IsFlat t) : s.unionLeaves t = s.unionMembers t := by
  unfold IsFlat at h
  unfold unionMembers at h ⊢
  cases hn : (s.node t).unionMembers? with
  | none => exact unionLeaves_of_not_union hn
  | some members =>
      rw [hn] at h
      exact leaves_of_flat hn h

end members

section absorb

variable {s : Store} {ts : List TypeId} {t : TypeId}

theorem mem_of_mem_absorbLiterals (h : t ∈ s.absorbLiterals ts) :
    t ∈ ts ∨ (t = .boolean ∧ .trueLiteral ∈ ts ∧ .falseLiteral ∈ ts) := by
  have ht := (List.mem_filter.mp h).1
  split at ht
  · rename_i hboth
    rcases TypeId.mem_insertSorted.mp ht with rfl | ht
    · exact .inr ⟨rfl, by simpa using hboth⟩
    · exact .inl ht
  · exact .inl ht

theorem mem_absorbLiterals (hs : s.Formed) (h : t ∈ ts) :
    t ∈ s.absorbLiterals ts ∨ ∃ v, s.node t = .literal v ∧ v.primitive ∈ s.absorbLiterals ts := by
  unfold absorbLiterals
  generalize hall : (if ts.contains .trueLiteral && ts.contains .falseLiteral then
    TypeId.insertSorted s.numbers .boolean ts else ts) = all
  have ht : t ∈ all := by
    rw [← hall]
    split
    · exact TypeId.mem_insertSorted.mpr (.inr h)
    · exact h
  simp only [List.mem_filter, Bool.not_eq_true']
  cases hn : s.node t with
  | literal v =>
      by_cases habsorbed : v.primitive ∈ all
      · obtain ⟨k, -, hk⟩ := hs.node_primitive v
        exact .inr ⟨v, rfl, habsorbed, by simp [hk]⟩
      · exact .inl ⟨ht, by simp [habsorbed]⟩
  | _ => exact .inl ⟨ht, rfl⟩

end absorb

end Store

open Store

/-- The result of uniting members that have been taken apart. -/
inductive Joined (s : Store) (flat : List TypeId) (s' : Store) : TypeId → Prop
  | error : .error ∈ flat → Joined s flat s' .error
  | any : .any ∈ flat → Joined s flat s' .any
  | unknown : .unknown ∈ flat → Joined s flat s' .unknown
  | never : s.absorbLiterals (flat.filter (· ≠ .never)) = [] → Joined s flat s' .never
  | single {t : TypeId} : s.absorbLiterals (flat.filter (· ≠ .never)) = [t] → Joined s flat s' t
  | union {t : TypeId} {ms : List TypeId} : .error ∉ flat → .any ∉ flat → .unknown ∉ flat →
      s.absorbLiterals (flat.filter (· ≠ .never)) = ms → 1 < ms.length → s'.node t = .union ms →
      Joined s flat s' t

theorem building_joined {s : Store} {ts : List TypeId} (hts : ∀ t ∈ ts, t.index < s.size) :
    building.Holds s (Build.union ts) fun s' r => r.index < s'.size ∧
      Joined s (TypeId.sortUnique s.numbers (ts.flatMap s.unionLeaves)) s' r := by
  refine building.formed fun hs => building_get ?_
  have hflat : ∀ t ∈ TypeId.sortUnique s.numbers (ts.flatMap s.unionLeaves), t.index < s.size := by
    refine forall_mem_flatLeaves (p := fun u => u.index < s.size) (fun u ms hu hn m hm => ?_) hts
    exact Nat.lt_trans (hs.descends u hu m (Node.unionMembers?_subset _ _ hn hm)) hu
  generalize TypeId.sortUnique s.numbers (ts.flatMap s.unionLeaves) = flat at hflat
  have hfixed : ∀ {t : TypeId}, t.isFixed → t.index < s.size := fun ht => hs.known_of_isFixed ht
  dsimp only
  by_cases herror : .error ∈ flat
  · rw [if_pos (by simpa using herror)]
    exact building.pure ⟨hfixed rfl, .error herror⟩
  rw [if_neg (by simpa using herror)]
  by_cases hany : .any ∈ flat
  · rw [if_pos (by simpa using hany)]
    exact building.pure ⟨hfixed rfl, .any hany⟩
  rw [if_neg (by simpa using hany)]
  by_cases hunknown : .unknown ∈ flat
  · rw [if_pos (by simpa using hunknown)]
    exact building.pure ⟨hfixed rfl, .unknown hunknown⟩
  rw [if_neg (by simpa using hunknown)]
  have hknown : ∀ t ∈ s.absorbLiterals (flat.filter (· ≠ .never)), t.index < s.size := by
    intro t ht
    rcases mem_of_mem_absorbLiterals ht with ht | ⟨rfl, -, -⟩
    · exact hflat t (List.mem_filter.mp ht).1
    · exact hfixed rfl
  split
  · rename_i h
    exact building.pure ⟨hfixed rfl, .never h⟩
  · rename_i t h
    exact building.pure ⟨hknown t (by rw [h]; simp), .single h⟩
  · rename_i hempty hsingle
    refine building.mono (building_node hknown (by simp)) fun s' r _ _ hr => ?_
    refine ⟨hr.1, .union herror hany hunknown rfl ?_ hr.2⟩
    generalize s.absorbLiterals (flat.filter (· ≠ .never)) = ms at hempty hsingle
    match ms with
    | [] => exact absurd rfl hempty
    | [t] => exact absurd rfl (hsingle t)
    | _ :: _ :: _ => simp

end TypeResolution
