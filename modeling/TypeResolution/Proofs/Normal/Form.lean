import TypeResolution.Proofs.Normal.Members
import TypeResolution.Proofs.Normal.Rewriting
import TypeResolution.Proofs.Store.Twin

/-!
The shape of normal types. The members of a normal union or intersection are in a form to which no
rewrite applies any more, and so are the members of what is made of normal types.
-/

namespace TypeResolution

section lists

variable {α β : Type} {l : List α}

theorem length_filterMap_le_one {f : α → Option β} (hl : l.Nodup)
    (h : ∀ a ∈ l, ∀ b ∈ l, (f a).isSome → (f b).isSome → a = b) : (l.filterMap f).length ≤ 1 := by
  induction l with
  | nil => simp
  | cons a rest ih =>
      obtain ⟨ha, hrest⟩ := List.nodup_cons.mp hl
      cases hfa : f a with
      | none =>
          rw [List.filterMap_cons_none hfa]
          exact ih hrest fun b hb c hc => h b (by simp [hb]) c (by simp [hc])
      | some y =>
          have hnone : rest.filterMap f = [] := by
            rw [List.filterMap_eq_nil_iff]
            intro b hb
            by_contra hfb
            have hab : a = b :=
              h a (by simp) b (by simp [hb]) (by simp [hfa]) (Option.isSome_iff_ne_none.mpr hfb)
            exact ha (hab ▸ hb)
          simp [List.filterMap_cons_some hfa, hnone]

theorem exists_cons_cons (h : 1 < l.length) : ∃ a b rest, l = a :: b :: rest := by
  match l with
  | [] => simp at h
  | [_] => simp at h
  | a :: b :: rest => exact ⟨a, b, rest, rfl⟩

theorem eq_of_length_le_one (h : l.length ≤ 1) : ∀ a ∈ l, ∀ b ∈ l, a = b := by
  match l with
  | [] => simp
  | [a] => simp
  | _ :: _ :: _ => simp at h

end lists

namespace TypeId

theorem nodup_of_sorted {numbers : Numbering} {ts : List TypeId} (h : ts.Pairwise (Before numbers)) :
    ts.Nodup :=
  sortUnique_of_sorted h ▸ nodup_sortUnique ts

end TypeId

open Store

namespace Store

variable {s : Store} {t : TypeId}

theorem literal?_eq_some_iff {v : Literal} : s.literal? t = some v ↔ s.node t = .literal v := by
  unfold literal?
  split <;> simp_all

theorem node_of_isObject (h : s.isObject t) : ∃ o, s.node t = .object o := by
  unfold isObject objectShape? at h
  split at h
  · exact ⟨_, ‹_›⟩
  · cases h

theorem isObjectLike_of_isObject (h : s.isObject t) : s.isObjectLike t := by
  obtain ⟨o, hn⟩ := node_of_isObject h
  rw [isObjectLike, hn]

theorem isObject_of_isEmptyObject (h : s.isEmptyObject t) : s.isObject t := by
  unfold isEmptyObject at h
  unfold isObject
  cases hshape : s.objectShape? t with
  | none => simp [hshape] at h
  | some _ => rfl

end Store

namespace Normal

variable {s s' : Store} {ms us : List TypeId} {t : TypeId}

theorem primitiveClass?_literal {v : Literal} (h : s.literal? t = some v) :
    ∃ c, primitiveClass? s t = some c ∧ c.isNullish = false := by
  rw [literal?_eq_some_iff] at h
  cases v with
  | string _ => exact ⟨.string, by simp [primitiveClass?, h], rfl⟩
  | number _ => exact ⟨.number, by simp [primitiveClass?, h], rfl⟩
  | boolean _ => exact ⟨.boolean, by simp [primitiveClass?, h], rfl⟩

theorem eq_void_of_class (hs : s.Formed) (ht : t.index < s.size)
    (h : primitiveClass? s t = some .void) : t = .void := by
  unfold primitiveClass? at h
  split at h <;> cases h
  rename_i hn
  exact hs.eq_of_intrinsic ht hn

/-- The rules for primitives have nothing left to do. -/
structure Irreducible (s : Store) (ms : List TypeId) : Prop where
  one_class : ∀ m ∈ ms, ∀ u ∈ ms, ∀ c d, primitiveClass? s m = some c →
    primitiveClass? s u = some d → c = d
  not_nullish : ∀ m ∈ ms, ∀ c, primitiveClass? s m = some c → c.isNullish → ∀ u ∈ ms,
    s.isObjectLike u = false
  not_empty : ∀ m ∈ ms, ∀ c, primitiveClass? s m = some c → ∀ u ∈ ms, s.isEmptyObject u = false
  one_literal : ∀ m ∈ ms, ∀ u ∈ ms, (s.literal? m).isSome → (s.literal? u).isSome → m = u
  no_primitive : ∀ m ∈ ms, ∀ v, s.literal? m = some v → v.primitive ∉ ms

theorem Irreducible.keepLiteral_eq (h : Irreducible s ms) (hunique : ms.Nodup) :
    keepLiteral s ms = some ms := by
  have hlength := length_filterMap_le_one hunique h.one_literal
  unfold keepLiteral
  match hl : ms.filterMap s.literal? with
  | [] => rfl
  | [v] =>
      obtain ⟨m, hm, hv⟩ := List.mem_filterMap.mp (hl ▸ List.mem_singleton_self v)
      refine congrArg some (List.filter_eq_self.mpr fun u hu => ?_)
      have hne : u ≠ v.primitive := fun he => h.no_primitive m hm v hv (he ▸ hu)
      simpa using hne
  | _ :: _ :: _ => simp [hl] at hlength

theorem Irreducible.reducePrimitives_eq (h : Irreducible s ms) (hunique : ms.Nodup) :
    reducePrimitives s ms = some ms := by
  have hclass : ∀ c ∈ (ms.filterMap (primitiveClass? s)).eraseDups,
      ∃ m ∈ ms, primitiveClass? s m = some c := by
    intro c hc
    rw [List.mem_eraseDups, List.mem_filterMap] at hc
    exact hc
  have hdistinct := nodup_eraseDups (ms.filterMap (primitiveClass? s))
  unfold reducePrimitives
  generalize (ms.filterMap (primitiveClass? s)).eraseDups = classes at hclass hdistinct
  match classes with
  | [] => rfl
  | [c] =>
      obtain ⟨m, hm, hmc⟩ := hclass c (by simp)
      have hnullish : ∀ u ∈ ms, s.isObjectLike u = true → c.isNullish = false := by
        intro u hu hlike
        by_contra hnull
        simp [h.not_nullish m hm c hmc (by simpa using hnull) u hu] at hlike
      have hfilter : ms.filter (!s.isEmptyObject ·) = ms :=
        List.filter_eq_self.mpr fun u hu => by simp [h.not_empty m hm c hmc u hu]
      simpa [hfilter, h.keepLiteral_eq hunique] using hnullish
  | c :: d :: rest =>
      obtain ⟨m, hm, hmc⟩ := hclass c (by simp)
      obtain ⟨u, hu, hud⟩ := hclass d (by simp)
      have hcd := h.one_class m hm u hu c d hmc hud
      simp [hcd] at hdistinct

theorem Irreducible.congr (h : Irreducible s ms) (hnode : ∀ m ∈ ms, s'.node m = s.node m) :
    Irreducible s' ms := by
  have hclass : ∀ m ∈ ms, primitiveClass? s' m = primitiveClass? s m := fun m hm => by
    simp only [primitiveClass?, hnode m hm]
  have hlike : ∀ m ∈ ms, s'.isObjectLike m = s.isObjectLike m := fun m hm => by
    simp only [isObjectLike, hnode m hm]
  have hempty : ∀ m ∈ ms, s'.isEmptyObject m = s.isEmptyObject m := fun m hm => by
    simp only [isEmptyObject, objectShape?, hnode m hm]
  have hliteral : ∀ m ∈ ms, s'.literal? m = s.literal? m := fun m hm => by
    simp only [literal?, hnode m hm]
  constructor
  · intro m hm u hu c d
    rw [hclass m hm, hclass u hu]
    exact h.one_class m hm u hu c d
  · intro m hm c hc hnull u hu
    rw [hlike u hu]
    exact h.not_nullish m hm c (hclass m hm ▸ hc) hnull u hu
  · intro m hm c hc u hu
    rw [hempty u hu]
    exact h.not_empty m hm c (hclass m hm ▸ hc) u hu
  · intro m hm u hu
    rw [hliteral m hm, hliteral u hu]
    exact h.one_literal m hm u hu
  · intro m hm v
    rw [hliteral m hm]
    exact h.no_primitive m hm v

/-- What becomes of the members of an intersection that has values. -/
inductive Reduces (s : Store) (ms : List TypeId) : List TypeId → Prop
  | unclassed : (∀ m ∈ ms, primitiveClass? s m = none) → Reduces s ms ms
  | undefined : (∀ m ∈ ms, s.isObjectLike m = false) →
      (∀ m ∈ ms, ∀ c, primitiveClass? s m = some c → c = .void ∨ c = .undefined) →
      Reduces s ms (ms.filter (· ≠ .void))
  | classed {c : PrimitiveClass} {us : List TypeId} :
      (∀ m ∈ ms, ∀ d, primitiveClass? s m = some d → d = c) →
      (c.isNullish → ∀ m ∈ ms, s.isObjectLike m = false) →
      keepLiteral s (ms.filter (!s.isEmptyObject ·)) = some us → Reduces s ms us

theorem eq_or_eq_of_pair {c d e : PrimitiveClass} {classes : List PrimitiveClass}
    (hlength : classes.length = 2) (hc : c ∈ classes) (hd : d ∈ classes) (hne : c ≠ d)
    (he : e ∈ classes) : e = c ∨ e = d := by
  match classes with
  | [a, b] => grind

theorem reduces_of_reducePrimitives (h : reducePrimitives s ms = some us) : Reduces s ms us := by
  have hclass : ∀ {m c}, m ∈ ms → primitiveClass? s m = some c →
      c ∈ (ms.filterMap (primitiveClass? s)).eraseDups := by
    intro m c hm hc
    rw [List.mem_eraseDups, List.mem_filterMap]
    exact ⟨m, hm, hc⟩
  have hrest : (if ms.any s.isObjectLike then ms.filter (!s.isEmptyObject ·) else ms) =
      ms.filter (!s.isEmptyObject ·) := by
    split
    · rfl
    · rename_i hnone
      refine (List.filter_eq_self.mpr fun m hm => ?_).symm
      cases hempty : s.isEmptyObject m with
      | false => rfl
      | true =>
          have hlike := isObjectLike_of_isObject (isObject_of_isEmptyObject hempty)
          exact absurd (List.any_eq_true.mpr ⟨m, hm, hlike⟩) hnone
  simp only [reducePrimitives, hrest] at h
  generalize (ms.filterMap (primitiveClass? s)).eraseDups = classes at hclass h
  split at h
  · rename_i hnil
    cases h
    refine .unclassed fun m hm => Option.eq_none_iff_forall_ne_some.mpr fun c hc => ?_
    have hc := hclass hm hc
    simp [List.isEmpty_iff.mp hnil] at hc
  rename_i hsome
  split at h
  · cases h
  rename_i hnullish
  have hnone : ∀ c ∈ classes, c.isNullish → ∀ m ∈ ms, s.isObjectLike m = false := by
    intro c hc hnull m hm
    by_contra hlike
    refine hnullish ?_
    simp only [Bool.and_eq_true, List.any_eq_true]
    exact ⟨⟨m, hm, by simpa using hlike⟩, c, hc, hnull⟩
  split at h
  · rename_i hpair
    simp only [Bool.and_eq_true, decide_eq_true_eq, List.contains_iff_mem] at hpair
    obtain ⟨⟨hlength, hvoid⟩, hundefined⟩ := hpair
    have hlike := hnone _ hvoid rfl
    have hfilter : ms.filter (!s.isEmptyObject ·) = ms := by
      refine List.filter_eq_self.mpr fun m hm => ?_
      cases hempty : s.isEmptyObject m with
      | false => rfl
      | true =>
          have := isObjectLike_of_isObject (isObject_of_isEmptyObject hempty)
          simp [hlike m hm] at this
    rw [hfilter] at h
    cases h
    refine .undefined hlike fun m hm c hc => ?_
    exact eq_or_eq_of_pair hlength hvoid hundefined (by decide) (hclass hm hc)
  split at h
  · cases h
  rename_i hlength
  obtain _ | ⟨c, _ | ⟨d, rest⟩⟩ := classes
  · exact absurd rfl hsome
  · refine .classed (c := c) (fun m hm d hd => ?_) (hnone c (by simp)) h
    simpa using hclass hm hd
  · simp at hlength

theorem irreducible_of_keepLiteral (hs : s.Formed) (hms : ∀ m ∈ ms, m.index < s.size)
    (h : keepLiteral s ms = some us) :
    (∀ m ∈ us, m ∈ ms) ∧ (∀ m ∈ us, ∀ u ∈ us, (s.literal? m).isSome → (s.literal? u).isSome → m = u) ∧
      ∀ m ∈ us, ∀ v, s.literal? m = some v → v.primitive ∉ us := by
  have hmem : ∀ m ∈ ms, ∀ v, s.literal? m = some v → v ∈ ms.filterMap s.literal? :=
    fun m hm v hv => List.mem_filterMap.mpr ⟨m, hm, hv⟩
  unfold keepLiteral at h
  split at h
  · rename_i hnil
    cases h
    rw [hnil] at hmem
    refine ⟨fun _ hm => hm, fun m hm u _ hv => ?_, fun m hm v hv => absurd (hmem m hm v hv) (by simp)⟩
    obtain ⟨v, hv⟩ := Option.isSome_iff_exists.mp hv
    exact absurd (hmem m hm v hv) (by simp)
  · rename_i value hone
    cases h
    have hvalue : ∀ m ∈ ms, ∀ v, s.literal? m = some v → v = value := by
      intro m hm v hv
      simpa [hone] using hmem m hm v hv
    refine ⟨fun _ hm => (List.mem_filter.mp hm).1, fun m hm u hu hv hw => ?_, fun m hm v hv hp => ?_⟩
    · obtain ⟨v, hv⟩ := Option.isSome_iff_exists.mp hv
      obtain ⟨w, hw⟩ := Option.isSome_iff_exists.mp hw
      have hm := (List.mem_filter.mp hm).1
      have hu := (List.mem_filter.mp hu).1
      refine hs.eq_of_node_eq (hms m hm) (hms u hu) ?_
      rw [literal?_eq_some_iff.mp hv, literal?_eq_some_iff.mp hw, hvalue m hm v hv, hvalue u hu w hw]
    · have hvv := hvalue m (List.mem_filter.mp hm).1 v hv
      simp [hvv] at hp
  · cases h

theorem irreducible_of_reducePrimitives (hs : s.Formed) (hms : ∀ m ∈ ms, m.index < s.size)
    (h : reducePrimitives s ms = some us) : Irreducible s us := by
  cases reduces_of_reducePrimitives h with
  | unclassed hnone =>
      have hclass : ∀ m ∈ ms, ∀ c, primitiveClass? s m ≠ some c := by
        intro m hm c hc
        simp [hnone m hm] at hc
      have hliteral : ∀ m ∈ ms, ∀ v, s.literal? m ≠ some v := by
        intro m hm v hv
        obtain ⟨c, hc, -⟩ := primitiveClass?_literal hv
        exact hclass m hm c hc
      refine ⟨fun m hm _ _ c _ hc => absurd hc (hclass m hm c), fun m hm c hc => absurd hc (hclass m hm c),
        fun m hm c hc => absurd hc (hclass m hm c), fun m hm _ _ hv => ?_,
        fun m hm v hv => absurd hv (hliteral m hm v)⟩
      obtain ⟨v, hv⟩ := Option.isSome_iff_exists.mp hv
      exact absurd hv (hliteral m hm v)
  | undefined hlike hclass =>
      have hmem : ∀ {m}, m ∈ ms.filter (· ≠ .void) → m ∈ ms := fun hm => (List.mem_filter.mp hm).1
      have hundefined : ∀ m ∈ ms.filter (· ≠ .void), ∀ c, primitiveClass? s m = some c →
          c = .undefined := by
        intro m hm c hc
        rcases hclass m (hmem hm) c hc with rfl | hc
        · have hvoid := eq_void_of_class hs (hms m (hmem hm)) hc
          simp [hvoid] at hm
        · exact hc
      have hliteral : ∀ m ∈ ms.filter (· ≠ .void), ∀ v, s.literal? m ≠ some v := by
        intro m hm v hv
        obtain ⟨c, hc, hnullish⟩ := primitiveClass?_literal hv
        rw [hundefined m hm c hc] at hnullish
        cases hnullish
      constructor
      · intro m hm u hu c d hc hd
        rw [hundefined m hm c hc, hundefined u hu d hd]
      · exact fun _ _ _ _ _ u hu => hlike u (hmem hu)
      · intro _ _ _ _ u hu
        by_contra hempty
        have hobject := isObjectLike_of_isObject (isObject_of_isEmptyObject (by simpa using hempty))
        simp [hlike u (hmem hu)] at hobject
      · intro m hm _ _ hv
        obtain ⟨v, hv⟩ := Option.isSome_iff_exists.mp hv
        exact absurd hv (hliteral m hm v)
      · exact fun m hm v hv => absurd hv (hliteral m hm v)
  | @classed c _ hclass hlike hkeep =>
      obtain ⟨hsub, hone, hprimitive⟩ := irreducible_of_keepLiteral hs
        (fun m hm => hms m (List.mem_filter.mp hm).1) hkeep
      have hmem : ∀ {m}, m ∈ us → m ∈ ms := fun hm => (List.mem_filter.mp (hsub _ hm)).1
      constructor
      · intro m hm u hu d e hd he
        rw [hclass m (hmem hm) d hd, hclass u (hmem hu) e he]
      · intro m hm d hd hnull u hu
        exact hlike (hclass m (hmem hm) d hd ▸ hnull) u (hmem hu)
      · intro _ _ _ _ u hu
        simpa using (List.mem_filter.mp (hsub u hu)).2
      · exact hone
      · exact hprimitive

section meet

/-- There is no union among the members, or the unions have too many combinations. -/
def crowded (s : Store) (ms : List TypeId) : Bool :=
  (ms.filterMap s.unionMembers?).isEmpty ||
    Limits.distributionSize < choiceCount (ms.filterMap s.unionMembers?)

/-- Members that no rule for intersections applies to. -/
structure MeetForm (s : Store) (ms : List TypeId) : Prop where
  flat : ∀ m ∈ ms, (s.node m).intersectionMembers? = none
  plain : ∀ m ∈ ms, m ≠ .error ∧ m ≠ .never ∧ m ≠ .any ∧ m ≠ .unknown
  crowded : crowded s ms
  irreducible : Irreducible s ms
  one_object : ∀ m ∈ ms, ∀ u ∈ ms, s.isObject m → s.isObject u → m = u

theorem filterMap_unionMembers?_congr (h : ∀ m ∈ ms, s'.node m = s.node m) :
    ms.filterMap s'.unionMembers? = ms.filterMap s.unionMembers? := by
  refine List.filterMap_congr fun m hm => ?_
  simp only [unionMembers?, h m hm]

theorem MeetForm.congr (hms : MeetForm s ms) (h : ∀ m ∈ ms, s'.node m = s.node m) :
    MeetForm s' ms where
  flat m hm := by rw [h m hm]; exact hms.flat m hm
  plain := hms.plain
  crowded := by
    simp only [Normal.crowded, filterMap_unionMembers?_congr h]
    exact hms.crowded
  irreducible := hms.irreducible.congr h
  one_object m hm u hu := by
    simp only [isObject, objectShape?, h m hm, h u hu]
    exact hms.one_object m hm u hu

theorem filterMap_eq_of_sorted {β : Type} {f : TypeId → Option β} {l l' : List TypeId}
    (hl : s.InOrder l) (hl' : l'.Pairwise (TypeId.Before s.numbers))
    (h : ∀ t, (f t).isSome → (t ∈ l ↔ t ∈ l')) : l.filterMap f = l'.filterMap f := by
  have hskip : ∀ k : List TypeId, (k.filter fun t => (f t).isSome).filterMap f = k.filterMap f := by
    intro k
    rw [List.filterMap_filter]
    refine List.filterMap_congr fun t _ => ?_
    cases f t <;> rfl
  have hfilter : (l.filter fun t => (f t).isSome) = l'.filter fun t => (f t).isSome := by
    refine TypeId.eq_of_sorted (hl.filter _) (hl'.filter _) fun t => ?_
    simp only [List.mem_filter, and_congr_left_iff]
    exact h t
  rw [← hskip l, hfilter, hskip l']

theorem unionMembers?_of_isObject (h : s.isObject t) : s.unionMembers? t = none := by
  obtain ⟨o, hn⟩ := node_of_isObject h
  rw [unionMembers?, hn]
  rfl

theorem unionMembers?_intrinsic (hs : s.Formed) (k : Intrinsic) : s.unionMembers? k.typeId = none := by
  rw [unionMembers?, hs.node_intrinsic k]
  rfl

theorem mem_of_reducePrimitives (hs : s.Formed)
    (h : reducePrimitives s ms = some us) (hunion : (s.unionMembers? t).isSome)
    (ht : t ∈ ms) : t ∈ us := by
  have hvoid : t ≠ .void := by
    rintro rfl
    rw [show TypeId.void = Intrinsic.void.typeId from rfl, unionMembers?_intrinsic hs] at hunion
    cases hunion
  have hempty : s.isEmptyObject t = false := by
    by_contra hempty
    have hobject := isObject_of_isEmptyObject (by simpa using hempty)
    simp [unionMembers?_of_isObject hobject] at hunion
  cases reduces_of_reducePrimitives h with
  | unclassed _ => exact ht
  | undefined _ _ => exact List.mem_filter.mpr ⟨ht, by simpa using hvoid⟩
  | classed _ _ hkeep =>
      have ht : t ∈ ms.filter (!s.isEmptyObject ·) := List.mem_filter.mpr ⟨ht, by simp [hempty]⟩
      unfold keepLiteral at hkeep
      split at hkeep
      · cases hkeep
        exact ht
      · rename_i v _
        cases hkeep
        refine List.mem_filter.mpr ⟨ht, ?_⟩
        have hne : t ≠ v.primitive := by
          rintro rfl
          obtain ⟨k, -, hk⟩ := hs.node_primitive v
          rw [unionMembers?, hk] at hunion
          cases hunion
        simpa using hne
      · cases hkeep

theorem sublist_reducePrimitives (h : reducePrimitives s ms = some us) :
    us.Sublist ms := by
  cases reduces_of_reducePrimitives h with
  | unclassed _ => exact .refl _
  | undefined _ _ => exact List.filter_sublist
  | classed _ _ hkeep =>
      unfold keepLiteral at hkeep
      split at hkeep
      · cases hkeep
        exact List.filter_sublist
      · cases hkeep
        exact List.filter_sublist.trans List.filter_sublist
      · cases hkeep

/-- Objects of which one stands for all others are as irreducible as they were. -/
theorem Irreducible.merged {vs : List TypeId} {merged : TypeId} (hs' : s'.Formed)
    (h : Irreducible s' us) (hobject : s'.isObject merged)
    (hempty : s'.isEmptyObject merged → ∀ o ∈ us, s'.isObject o → s'.isEmptyObject o)
    (hsome : ∃ o ∈ us, s'.isObject o) (hvs : ∀ m ∈ vs, m = merged ∨ m ∈ us) : Irreducible s' vs := by
  obtain ⟨shape, hn⟩ := node_of_isObject hobject
  have hclass : ∀ {m c}, m ∈ vs → primitiveClass? s' m = some c → m ∈ us := by
    intro m c hm hc
    rcases hvs m hm with rfl | hm
    · simp [primitiveClass?, hn] at hc
    · exact hm
  have hliteral : ∀ {m v}, m ∈ vs → s'.literal? m = some v → m ∈ us := by
    intro m v hm hv
    obtain ⟨c, hc, -⟩ := primitiveClass?_literal hv
    exact hclass hm hc
  obtain ⟨o, ho, hoObject⟩ := hsome
  constructor
  · exact fun m hm u hu c d hc hd => h.one_class m (hclass hm hc) u (hclass hu hd) c d hc hd
  · intro m hm c hc hnull
    have hnone := h.not_nullish m (hclass hm hc) c hc hnull o ho
    simp [isObjectLike_of_isObject hoObject] at hnone
  · intro m hm c hc u hu
    rcases hvs u hu with rfl | hu
    · by_contra hemptyMerged
      have hoEmpty := hempty (by simpa using hemptyMerged) o ho hoObject
      simp [h.not_empty m (hclass hm hc) c hc o ho] at hoEmpty
    · exact h.not_empty m (hclass hm hc) c hc u hu
  · intro m hm u hu hv hw
    obtain ⟨v, hv'⟩ := Option.isSome_iff_exists.mp hv
    obtain ⟨w, hw'⟩ := Option.isSome_iff_exists.mp hw
    exact h.one_literal m (hliteral hm hv') u (hliteral hu hw') hv hw
  · intro m hm v hv hp
    rcases hvs _ hp with hp | hp
    · obtain ⟨k, -, hk⟩ := hs'.node_primitive v
      rw [hp, hn] at hk
      cases hk
    · exact h.no_primitive m (hliteral hm hv) v hv hp

theorem crowded_eq_of_sorted {l l' : List TypeId} (hl : s.InOrder l)
    (hl' : l'.Pairwise (TypeId.Before s.numbers)) (h : ∀ t, (s.unionMembers? t).isSome → (t ∈ l ↔ t ∈ l')) :
    crowded s l = crowded s l' := by
  unfold crowded
  rw [filterMap_eq_of_sorted hl hl' h]

theorem plain_of_isObject (hs : s.Formed) (h : s.isObject t) :
    t ≠ .error ∧ t ≠ .never ∧ t ≠ .any ∧ t ≠ .unknown := by
  obtain ⟨o, hn⟩ := node_of_isObject h
  refine ⟨?_, ?_, ?_, ?_⟩ <;> rintro rfl
  · cases (hs.node_fixed (i := 0) (by decide)).symm.trans hn
  · cases (hs.node_intrinsic .never).symm.trans hn
  · cases (hs.node_intrinsic .any).symm.trans hn
  · cases (hs.node_intrinsic .unknown).symm.trans hn

/-- Once its objects are merged, no rule applies to an intersection any more. -/
theorem meetForm_merged (hs : s.Formed) {rest : List TypeId} (merged : TypeId)
    (hsorted : s.InOrder us) (hrestSorted : s.InOrder rest)
    (hflat : ∀ m ∈ us, (s.node m).intersectionMembers? = none)
    (hplain : ∀ m ∈ us, m ≠ .error ∧ m ≠ .never ∧ m ≠ .any ∧ m ≠ .unknown)
    (hcrowded : crowded s us) (hirreducible : Irreducible s us) (hobject : s.isObject merged)
    (hempty : s.isEmptyObject merged → ∀ o ∈ us, s.isObject o → s.isEmptyObject o)
    (hsome : ∃ o ∈ us, s.isObject o)
    (hrest : ∀ m, m ∈ rest ↔ m = merged ∨ (m ∈ us ∧ s.isObject m = false)) : MeetForm s rest where
  flat m hm := by
    rcases (hrest m).mp hm with rfl | ⟨hm, -⟩
    · obtain ⟨o, hn⟩ := node_of_isObject hobject
      rw [hn]
      rfl
    · exact hflat m hm
  plain m hm := by
    rcases (hrest m).mp hm with rfl | ⟨hm, -⟩
    · exact plain_of_isObject hs hobject
    · exact hplain m hm
  crowded := by
    -- objects are no unions, so both lists have the same unions
    rw [crowded_eq_of_sorted hrestSorted hsorted fun t ht => ?_]
    · exact hcrowded
    rw [hrest]
    constructor
    · rintro (rfl | ⟨h, -⟩)
      · simp [unionMembers?_of_isObject hobject] at ht
      · exact h
    · intro h
      refine .inr ⟨h, ?_⟩
      by_contra hobject
      simp [unionMembers?_of_isObject (by simpa using hobject)] at ht
  irreducible := hirreducible.merged hs hobject hempty hsome fun m hm =>
    ((hrest m).mp hm).imp_right And.left
  one_object := by
    have hone : ∀ m ∈ rest, s.isObject m → m = merged := by
      intro m hm hobj
      rcases (hrest m).mp hm with h | ⟨-, hnot⟩
      · exact h
      · simp [hnot] at hobj
    exact fun m hm u hu hmo huo => (hone m hm hmo).trans (hone u hu huo).symm

theorem eq_filter_of_absorbMeet (h : absorbMeet ms = .inr us) : us = ms.filter (· ≠ .unknown) := by
  unfold absorbMeet at h
  split at h
  · cases h
  split at h
  · cases h
  split at h
  · cases h
  generalize ms.filter (· ≠ .unknown) = l at h
  match l with
  | [] => cases h
  | [_] => cases h
  | _ :: _ :: _ =>
      cases h
      rfl

theorem absorbMeet_eq_inr (h : absorbMeet ms = .inr us) :
    us.Sublist ms ∧ ∀ t ∈ us, t ≠ .error ∧ t ≠ .never ∧ t ≠ .any ∧ t ≠ .unknown := by
  rw [eq_filter_of_absorbMeet h]
  unfold absorbMeet at h
  split at h
  · cases h
  rename_i herror
  split at h
  · cases h
  rename_i hnever
  split at h
  · cases h
  rename_i hany
  refine ⟨List.filter_sublist, fun t ht => ?_⟩
  obtain ⟨ht, hunknown⟩ := List.mem_filter.mp ht
  simp only [List.contains_eq_mem, decide_eq_true_eq] at herror hnever hany
  exact ⟨fun he => herror (he ▸ ht), fun he => hnever (he ▸ ht), fun he => hany (he ▸ ht),
    by simpa using hunknown⟩

theorem absorbMeet_eq_inl (h : absorbMeet ms = .inl t) : t.isFixed ∨ t ∈ ms := by
  unfold absorbMeet at h
  split at h
  · cases h
    exact .inl rfl
  split at h
  · cases h
    exact .inl rfl
  split at h
  · cases h
    exact .inl rfl
  split at h
  · cases h
    exact .inl rfl
  · rename_i u hu
    cases h
    exact .inr (List.mem_filter.mp (hu ▸ List.mem_singleton_self t)).1
  · cases h

end meet

section join

/-- Members that no rule for unions applies to. -/
structure JoinForm (s : Store) (ms : List TypeId) : Prop where
  flat : ∀ m ∈ ms, (s.node m).unionMembers? = none
  plain : ∀ m ∈ ms, m ≠ .error ∧ m ≠ .any ∧ m ≠ .unknown ∧ m ≠ .never
  absorbed : ∀ m ∈ ms, ∀ v, s.node m = .literal v → v.primitive ∉ ms
  not_both : .trueLiteral ∈ ms → .falseLiteral ∉ ms

theorem JoinForm.congr (hms : JoinForm s ms) (h : ∀ m ∈ ms, s'.node m = s.node m) :
    JoinForm s' ms where
  flat m hm := by rw [h m hm]; exact hms.flat m hm
  plain := hms.plain
  absorbed m hm := by rw [h m hm]; exact hms.absorbed m hm
  not_both := hms.not_both

theorem sorted_absorbLiterals (h : s.InOrder ms) :
    (s.absorbLiterals ms).Pairwise (TypeId.Before s.numbers) := by
  unfold absorbLiterals
  refine List.Pairwise.filter _ ?_
  split
  · exact TypeId.sorted_insertSorted _ h
  · exact h

theorem primitive_not_mem_absorbLiterals {m : TypeId} {v : Literal} (hm : m ∈ s.absorbLiterals ms)
    (hv : s.node m = .literal v) : v.primitive ∉ s.absorbLiterals ms := by
  intro hp
  have hkept := (List.mem_filter.mp hm).2
  have hmem := List.contains_iff_mem.mpr (List.mem_filter.mp hp).1
  simp only [hv, hmem] at hkept
  cases hkept

theorem not_both_absorbLiterals (hs : s.Formed) (htrue : .trueLiteral ∈ s.absorbLiterals ms) :
    .falseLiteral ∉ s.absorbLiterals ms := by
  intro hfalse
  -- with both literals `boolean` is a member, and it absorbs them
  have hmem : ∀ {b}, TypeId.ofBool b ∈ s.absorbLiterals ms → TypeId.ofBool b ∈ ms := by
    intro b hb
    rcases mem_of_mem_absorbLiterals hb with h | ⟨h, -, -⟩
    · exact h
    · cases b <;> cases h
  have hboth : ms.contains .trueLiteral && ms.contains .falseLiteral := by
    simpa using ⟨hmem (b := true) htrue, hmem (b := false) hfalse⟩
  have hnode : s.node .trueLiteral = .literal (.boolean true) := hs.node_fixed (i := 10) (by decide)
  have hkept := (List.mem_filter.mp htrue).2
  rw [if_pos hboth] at hkept
  simp [hnode, Literal.primitive, TypeId.mem_insertSorted] at hkept

/-- Uniting members that are flat gives nothing that a rule applies to. -/
theorem joinForm_absorbLiterals (hs : s.Formed) (hflat : ∀ m ∈ ms, (s.node m).unionMembers? = none)
    (herror : .error ∉ ms) (hany : .any ∉ ms) (hunknown : .unknown ∉ ms) :
    JoinForm s (s.absorbLiterals (ms.filter (· ≠ .never))) where
  flat m hm := by
    rcases mem_of_mem_absorbLiterals hm with hm | ⟨rfl, -, -⟩
    · exact hflat m (List.mem_filter.mp hm).1
    · have hn : s.node .boolean = .intrinsic .boolean := hs.node_intrinsic .boolean
      rw [hn]
      rfl
  plain m hm := by
    rcases mem_of_mem_absorbLiterals hm with hm | ⟨rfl, -, -⟩
    · obtain ⟨hm, hnever⟩ := List.mem_filter.mp hm
      exact ⟨fun h => herror (h ▸ hm), fun h => hany (h ▸ hm), fun h => hunknown (h ▸ hm),
        by simpa using hnever⟩
    · decide
  absorbed _ hm _ hv := primitive_not_mem_absorbLiterals hm hv
  not_both := not_both_absorbLiterals hs

end join

end Normal

open TypeResolution.Normal

/-- No rewrite applies at the node itself. -/
def Node.InForm (s : Store) : Node → Prop
  | .union ms => 1 < ms.length ∧ s.InOrder ms ∧ JoinForm s ms
  | .intersection ms => 1 < ms.length ∧ s.InOrder ms ∧ MeetForm s ms
  | _ => True

theorem Node.InForm.congr {s s' : Store} {n : Node} (hn : n.InForm s)
    (hnumbers : s'.numbers = s.numbers) (h : n.isStructural → ∀ c ∈ n.components, s'.node c = s.node c) : n.InForm s' := by
  cases n with
  | union ms => exact ⟨hn.1, hn.2.1.congr hnumbers, hn.2.2.congr (h rfl)⟩
  | intersection ms => exact ⟨hn.1, hn.2.1.congr hnumbers, hn.2.2.congr (h rfl)⟩
  | _ => trivial

end TypeResolution
