import TypeResolution.Proofs.Assignability.Merging

/-!
The intersection in normal form as a lower bound. What a member is dropped for stands below it, two
objects are merged to one that is below both, and the union of one choice of members each is below
the unions that are chosen from. An intersection that keeps a union, since there are too many
choices, is not below that union.
-/

namespace TypeResolution

namespace Normal

open Store Assignability

section parts

variable {Γ : Context} {s s' : Store} {ts us ms : List TypeId} {t u r : TypeId}
  {meet : List TypeId → Reporting TypeId} {site : Option SourceTag}

/-- The members that take the place of one that is dropped. -/
inductive StandsIn (s : Store) (us : List TypeId) (t : TypeId) : Prop
  | self : t ∈ us → StandsIn s us t
  | literal {u : TypeId} {v : Literal} : u ∈ us → s.node u = .literal v → t = v.primitive →
      StandsIn s us t
  | undefined {u : TypeId} : u ∈ us → s.node u = .intrinsic .undefined → t = .void → StandsIn s us t
  | present {u : TypeId} {c : PrimitiveClass} : u ∈ us → primitiveClass? s u = some c →
      c.isNullish = false → s.isEmptyObject t → StandsIn s us t

theorem mem_of_keepLiteral (hs : s.Formed) (h : keepLiteral s ts = some us) (ht : t ∈ ts) :
    t ∈ us ∨ ∃ u ∈ us, ∃ v, s.node u = .literal v ∧ t = v.primitive := by
  unfold keepLiteral at h
  split at h
  · cases h
    exact .inl ht
  · rename_i value hone
    cases h
    by_cases hprimitive : t = value.primitive
    · have hvalue : value ∈ ts.filterMap s.literal? := by simp [hone]
      obtain ⟨l, hl, hv⟩ := List.mem_filterMap.mp hvalue
      rw [literal?_eq_some_iff] at hv
      refine .inr ⟨l, List.mem_filter.mpr ⟨hl, ?_⟩, value, hv, hprimitive⟩
      have hne : l ≠ value.primitive := by
        rintro rfl
        obtain ⟨k, -, hk⟩ := hs.node_primitive value
        cases hk.symm.trans hv
      simpa using hne
    · exact .inl (List.mem_filter.mpr ⟨ht, by simpa using hprimitive⟩)
  · cases h

theorem standsIn_of_keepLiteral (hs : s.Formed) (h : keepLiteral s ts = some us) (ht : t ∈ ts) :
    StandsIn s us t := by
  rcases mem_of_keepLiteral hs h ht with ht | ⟨u, hu, v, hv, hprimitive⟩
  · exact .self ht
  · exact .literal hu hv hprimitive

/-- What is left of the members of an intersection. -/
theorem standsIn_of_reducePrimitives (hs : s.Formed) (h : reducePrimitives s ts = some us)
    (ht : t ∈ ts) : StandsIn s us t := by
  have hclass : ∀ c, c ∈ (ts.filterMap (primitiveClass? s)).eraseDups ↔
      ∃ m ∈ ts, primitiveClass? s m = some c := by
    intro c
    rw [List.mem_eraseDups, List.mem_filterMap]
  unfold reducePrimitives at h
  generalize (ts.filterMap (primitiveClass? s)).eraseDups = classes at h hclass
  dsimp only at h
  split at h
  · cases h
    exact .self ht
  rename_i hsome
  split at h
  · cases h
  rename_i hnullish
  split at h
  · rename_i hpair
    cases h
    simp only [Bool.and_eq_true, List.contains_iff_mem] at hpair
    have hlike : ts.any s.isObjectLike = false := by
      by_contra hlike
      refine hnullish (Bool.and_eq_true_iff.mpr ⟨by simpa using hlike, ?_⟩)
      exact List.any_eq_true.mpr ⟨.void, hpair.1.2, rfl⟩
    rw [hlike]
    by_cases hvoid : t = .void
    · obtain ⟨m, hm, hmclass⟩ := (hclass .undefined).mp hpair.2
      have hnode : s.node m = .intrinsic .undefined := by
        unfold primitiveClass? at hmclass
        split at hmclass <;> cases hmclass
        assumption
      have hne : m ≠ .void := by
        rintro rfl
        cases hnode.symm.trans (hs.node_intrinsic .void)
      exact .undefined (List.mem_filter.mpr ⟨hm, by simpa using hne⟩) hnode hvoid
    · exact .self (List.mem_filter.mpr ⟨ht, by simpa using hvoid⟩)
  split at h
  · cases h
  cases hlike : ts.any s.isObjectLike with
  | false =>
      rw [hlike] at h
      exact standsIn_of_keepLiteral hs h ht
  | true =>
      rw [hlike, if_pos rfl] at h
      cases hempty : s.isEmptyObject t with
      | false => exact standsIn_of_keepLiteral hs h (List.mem_filter.mpr ⟨ht, by simp [hempty]⟩)
      | true =>
          obtain ⟨c, hc⟩ := List.exists_mem_of_ne_nil classes (by simpa using hsome)
          obtain ⟨m, hm, hmclass⟩ := (hclass c).mp hc
          have hpresent : c.isNullish = false := by
            by_contra hnull
            refine hnullish (Bool.and_eq_true_iff.mpr ⟨hlike, ?_⟩)
            exact List.any_eq_true.mpr ⟨c, hc, by simpa using hnull⟩
          have hfull : s.isEmptyObject m = false := by
            by_contra hempty
            obtain ⟨o, hn⟩ := node_of_isObject (isObject_of_isEmptyObject (by simpa using hempty))
            simp [primitiveClass?, hn] at hmclass
          -- the member of a class may be dropped in turn, for a literal
          rcases mem_of_keepLiteral hs h (List.mem_filter.mpr ⟨hm, by simp [hfull]⟩) with
            hm | ⟨u, hu, v, hv, -⟩
          · exact .present hm hmclass hpresent hempty
          · obtain ⟨d, hd, hdnull⟩ := primitiveClass?_literal (literal?_eq_some_iff.mpr hv)
            exact .present hu hd hdnull hempty

theorem not_nullish_of_class {c : PrimitiveClass} (hs : s.Formed) (hc : primitiveClass? s u = some c)
    (hpresent : c.isNullish = false) : u.isNullish = false ∧ u ≠ .unknown := by
  have hkind : ∀ k : Intrinsic, k ∈ [.null, .undefined, .void, .unknown] → u ≠ k.typeId := by
    rintro k hk rfl
    rw [primitiveClass?, hs.node_intrinsic k] at hc
    simp only [List.mem_cons, List.not_mem_nil, or_false] at hk
    rcases hk with rfl | rfl | rfl | rfl <;> cases hc <;> cases hpresent
  have hnull : u ≠ .null := hkind .null (by simp)
  have hundefined : u ≠ .undefined := hkind .undefined (by simp)
  have hvoid : u ≠ .void := hkind .void (by simp)
  exact ⟨by simp [TypeId.isNullish, hnull, hundefined, hvoid], hkind .unknown (by simp)⟩

section below

variable (hΓ : Γ.store.Formed) (hs : s.Formed) (hF : s.Extends Γ.store)

include hΓ hs hF

theorem StandsIn.assignable (h : StandsIn s us t) (ht : t.index < s.size)
    (hus : ∀ u ∈ us, u.index < s.size) :
    t ∈ us ∨ ∃ u ∈ us, s.isObject u = false ∧ Assignable Γ u t := by
  cases h with
  | self hmem => exact .inl hmem
  | @literal u v hu hv hprimitive =>
      have hvF : Γ.store.node u = .literal v := (hF.node_eq u (hus u hu)).trans hv
      refine .inr ⟨u, hu, by simp [isObject, objectShape?, hv], ?_⟩
      exact hprimitive ▸ assignable_of_choice hΓ (.literal hvF)
  | @undefined u hu hn hvoid =>
      have hnF : Γ.store.node u = .intrinsic .undefined := (hF.node_eq u (hus u hu)).trans hn
      subst hvoid
      refine .inr ⟨u, hu, by simp [isObject, objectShape?, hn], ?_⟩
      have hvoid : Γ.store.node .void = .intrinsic .void := hΓ.node_intrinsic .void
      apply assignable_of_fits (resolved_of_plain (by rw [hnF]; rfl)) (resolved_of_isFixed hΓ rfl)
        (by decide)
      rw [hnF, hvoid]
      exact ShapeFits.undefined rfl
  | @present u c hu hc hpresent hempty =>
      have hempty : FitsEmptyObject Γ u t := by
        refine ⟨?_, not_nullish_of_class hs hc hpresent⟩
        simpa only [isEmptyObject, objectShape?, hF.node_eq t ht] using hempty
      obtain ⟨o, hn⟩ := node_of_isObject (isObject_of_isEmptyObject hempty.1)
      have hne : t ≠ .never := by
        rintro rfl
        cases hn.symm.trans (hΓ.node_intrinsic .never)
      have hkind : (∃ k, Γ.store.node u = .intrinsic k) ∨ ∃ v, Γ.store.node u = .literal v := by
        rw [hF.node_eq u (hus u hu)]
        unfold primitiveClass? at hc
        split at hc
        all_goals first
          | cases hc
            done
          | simp [*]
      have hfits : ∀ n, Γ.store.node u = n → n.isMeta = false →
          Fits Γ (Assignable Γ) u t n (.object o) → Assignable Γ u t := by
        rintro n rfl hmeta hfits
        apply assignable_of_fits (resolved_of_plain hmeta) (resolved_of_plain (by rw [hn]; rfl)) hne
        rwa [hn]
      refine .inr ⟨u, hu, ?_, ?_⟩
      · rw [isObject, objectShape?, ← hF.node_eq u (hus u hu)]
        rcases hkind with ⟨k, hk⟩ | ⟨v, hv⟩
        · simp [hk]
        · simp [hv]
      · rcases hkind with ⟨k, hk⟩ | ⟨v, hv⟩
        · refine hfits _ hk rfl ?_
          cases k <;> exact ShapeFits.intrinsicInEmpty hempty
        · exact hfits _ hv rfl (ShapeFits.literalInEmpty hempty)

end below

/-- A type that is compared by its own node. -/
structure Single (Γ : Context) (t : TypeId) : Prop where
  resolved : Γ.resolved t = t
  ne_never : t ≠ .never
  not_union : ∀ us, Γ.store.node t ≠ .union us
  not_intersection : ∀ us, Γ.store.node t ≠ .intersection us

theorem lowers_rawIntersection (hts : ∀ m ∈ ts, m.index < s.size) :
    building.Holds s (Build.rawIntersection ts) fun s' r => r.index < s'.size ∧
      (s'.Extends Γ.store → ∀ m ∈ ts, ∀ t, Single Γ t → Assignable Γ m t → Assignable Γ r t) := by
  refine building.formed fun hs => ?_
  have hmem : ∀ m, m ∈ TypeId.sortUnique s.numbers ts ↔ m ∈ ts := fun m => TypeId.mem_sortUnique
  refine building_members ?_
  generalize TypeId.sortUnique s.numbers ts = us at hmem
  match us with
  | [] =>
      refine building.pure ⟨hs.known_of_isFixed rfl, fun _ m hm => ?_⟩
      cases (hmem m).mpr hm
  | [u] =>
      refine building.pure ⟨hts u ((hmem u).mp (List.mem_singleton_self u)), fun _ m hm t _ h => ?_⟩
      rwa [List.mem_singleton.mp ((hmem m).mpr hm)] at h
  | u :: v :: rest =>
      refine building.mono (building_node (fun c hc => hts c ((hmem c).mp hc)) (by simp))
        fun s' r _ _ hr => ⟨hr.1, fun hF m hm t ht h => ?_⟩
      exact assignable_from_member ((hF.node_eq r hr.1).trans hr.2) ((hmem m).mpr hm) ht.resolved
        ht.ne_never ht.not_union ht.not_intersection h

variable (hΓ : Γ.store.Formed) (hexcess : Γ.excess = false) (hmeet : Lowers Γ s meet)

include hΓ hexcess hmeet

/-- Parts without unions among them are assignable to each of them, put together. -/
theorem lowers_meetParts (hts : ∀ t ∈ ts, Meetable s t)
    (hsingle : ∀ t ∈ ts, s.Extends Γ.store → Single Γ t) (hobjects : ts.countP s.isObject ≤ 2) :
    reporting.Holds s (meetParts meet site ts) (Below Γ ts) := by
  refine reporting_store fun hs => ?_
  cases hr : reducePrimitives s ts with
  | none =>
      exact reporting.pure ⟨hs.known_of_isFixed rfl, fun _ t _ =>
        assignable_of_unfolds (.bottom (.inl rfl))⟩
  | some us =>
      have hsub := sublist_reducePrimitives hr
      have hus : ∀ u ∈ us, Meetable s u := fun u hu => hts u (hsub.subset hu)
      have hcovered : s.Extends Γ.store → ∀ t ∈ ts,
          t ∈ us ∨ ∃ u ∈ us, s.isObject u = false ∧ Assignable Γ u t := fun hF t ht =>
        (standsIn_of_reducePrimitives hs hr ht).assignable hΓ hs hF (hts t ht).known
          fun u hu => (hus u hu).known
      -- whatever is put together, each member needs something below it
      have hmade : ∀ {s₁ rest}, s.Extends s₁ → (∀ m ∈ rest, m.index < s₁.size) →
          (s₁.Extends Γ.store → ∀ t ∈ ts, ∃ m ∈ rest, Assignable Γ m t) →
          reporting.Holds s₁ (liftM (Build.rawIntersection rest)) (Below Γ ts) := by
        intro s₁ rest h₁ hrest hbelow
        refine reporting_lift (building.mono (lowers_rawIntersection (Γ := Γ) hrest)
          fun s₂ r h₂ _ hr => ⟨hr.1, fun hF t ht => ?_⟩)
        obtain ⟨m, hm, hmt⟩ := hbelow (h₂.trans hF) t ht
        exact hr.2 hF m hm t (hsingle t ht (h₁.trans (h₂.trans hF))) hmt
      dsimp only
      split
      · rename_i hmany
        have htwo : (us.filter s.isObject).length = 2 := by
          have hle := (hsub.countP_le (p := s.isObject)).trans hobjects
          rw [List.countP_eq_length_filter] at hle
          omega
        obtain ⟨a, b, hab⟩ := List.length_eq_two.mp htwo
        have hobject : ∀ u ∈ [a, b], u ∈ us ∧ s.isObject u := fun u hu =>
          List.mem_filter.mp (hab ▸ hu)
        obtain ⟨o, hna⟩ := node_of_isObject (hobject a (by simp)).2
        obtain ⟨p, hnb⟩ := node_of_isObject (hobject b (by simp)).2
        rw [hab]
        refine reporting.bind (lowers_mergeObjects hmeet hΓ hexcess (hus a (hobject a (by simp)).1)
          (hus b (hobject b (by simp)).1) hna hnb) fun s₁ merged h₁ _ hm => ?_
        refine hmade h₁ (List.forall_mem_cons.mpr ⟨hm.1, fun m hm => ?_⟩) fun hF t ht => ?_
        · exact Nat.lt_of_lt_of_le (hus m (List.mem_filter.mp hm).1).known h₁.size_le
        have hother : ∀ u ∈ us, s.isObject u = false →
            u ∈ merged :: us.filter fun m => !([a, b].contains m) := by
          intro u hu hu'
          refine List.mem_cons_of_mem _ (List.mem_filter.mpr ⟨hu, ?_⟩)
          simp only [Bool.not_eq_true', List.contains_eq_mem, decide_eq_false_iff_not]
          intro hmem
          simp [(hobject u hmem).2] at hu'
        rcases hcovered (h₁.trans hF) t ht with hmem | ⟨u, hu, hu', hut⟩
        · cases hobj : s.isObject t with
          | true =>
              have hmem : t ∈ [a, b] := hab ▸ List.mem_filter.mpr ⟨hmem, hobj⟩
              exact ⟨merged, List.mem_cons_self .., hm.2 hF t hmem⟩
          | false => exact ⟨t, hother t hmem hobj, assignable_refl t⟩
        · exact ⟨u, hother u hu hu', hut⟩
      · refine hmade (.refl s) (fun u hu => (hus u hu).known) fun hF t ht => ?_
        rcases hcovered hF t ht with hmem | ⟨u, hu, -, hut⟩
        · exact ⟨t, hmem, assignable_refl t⟩
        · exact ⟨u, hu, hut⟩

end parts

section distribution

variable {Γ : Context} {s s' : Store} {ts us ms flat : List TypeId} {t u r : TypeId}
  {meet : List TypeId → Reporting TypeId} {site : Option SourceTag}

/-- A choice keeps what has been chosen and adds a member of each union. -/
theorem exists_append_of_mem_choices {unions : List (List TypeId)} {chosen : List TypeId}
    (h : ms ∈ choices chosen unions) : ∃ picks, ms = chosen ++ picks ∧
      picks.length = unions.length ∧ ∀ members ∈ unions, ∃ m ∈ members, m ∈ picks := by
  induction unions generalizing chosen with
  | nil => exact ⟨[], by simpa [choices] using h, rfl, by simp⟩
  | cons members rest ih =>
      obtain ⟨m, hm, hms⟩ := List.mem_flatMap.mp h
      obtain ⟨picks, rfl, hlength, hpicks⟩ := ih hms
      refine ⟨m :: picks, by simp, by simp [hlength], List.forall_mem_cons.mpr ⟨?_, ?_⟩⟩
      · exact ⟨m, hm, List.mem_cons_self ..⟩
      · intro others hothers
        obtain ⟨u, hu, hpick⟩ := hpicks others hothers
        exact ⟨u, hu, List.mem_cons_of_mem _ hpick⟩

theorem choiceCount_le {unions : List (List TypeId)} {size : Nat}
    (h : ∀ members ∈ unions, members.length ≤ size) : choiceCount unions ≤ size ^ unions.length := by
  induction unions with
  | nil => simp [choiceCount]
  | cons members rest ih =>
      obtain ⟨hmembers, hrest⟩ := List.forall_mem_cons.mp h
      rw [List.length_cons, Nat.pow_succ, Nat.mul_comm]
      exact Nat.mul_le_mul hmembers (ih hrest)

/-- How many of the types an intersection looks into. -/
def divided (s : Store) (ts : List TypeId) : Nat := ts.countP fun t => !(s.node t).isUndivided

theorem divided_cons : divided s (t :: ts) = divided s [t] + divided s ts := by
  simp [divided, List.countP_cons, Nat.add_comm]

theorem divided_append : divided s (ts ++ us) = divided s ts + divided s us :=
  List.countP_append

theorem divided_le_length : divided s ts ≤ ts.length := List.countP_le_length

theorem divided_sortUnique_le : divided s (TypeId.sortUnique s.numbers ts) ≤ divided s ts :=
  (List.subperm_of_subset (TypeId.nodup_sortUnique ts) fun _ h =>
    TypeId.mem_sortUnique.mp h).countP_le _

theorem Meetable.intersectionLeaves_eq (h : Meetable s t) (hn : s.node t = .intersection ms) :
    s.intersectionLeaves t = ms :=
  leaves_of_flat (by rw [hn]; rfl) fun m hm => ((h.of_mem_intersection hn).2 m hm).2.2

theorem Meetable.divided_eq (h : Meetable s t) (hunion : s.unionMembers? t = none)
    (hmeet : (s.node t).intersectionMembers? = none) :
    (!(s.node t).isUndivided) = s.isObject t := by
  cases h with
  | undivided _ hn =>
      rw [hn, isObject, objectShape?]
      revert hn
      cases s.node t <;> simp [Node.isUndivided]
  | object _ hn => simp [hn, Node.isUndivided, isObject, objectShape?]
  | union _ hn => simp [unionMembers?, hn, Node.unionMembers?] at hunion
  | intersection _ hn => simp [hn, Node.intersectionMembers?] at hmeet

/-- Taking intersections apart gives no more to look into. -/
theorem divided_leaves_le (hts : ∀ t ∈ ts, Meetable s t) :
    divided s (ts.flatMap s.intersectionLeaves) ≤ divided s ts := by
  induction ts with
  | nil => exact Nat.le_refl _
  | cons t rest ih =>
      obtain ⟨ht, hrest⟩ := List.forall_mem_cons.mp hts
      rw [List.flatMap_cons, divided_append, divided_cons]
      refine Nat.add_le_add ?_ (ih hrest)
      cases hn : (s.node t).intersectionMembers? with
      | none => rw [intersectionLeaves_of_not_intersection hn]
      | some ms =>
          have hn := Node.eq_intersection_of_members hn
          obtain ⟨hobjects, hms⟩ := ht.of_mem_intersection hn
          have hcount : divided s ms = ms.countP s.isObject :=
            List.countP_congr fun m hm => by
              rw [(hms m hm).1.divided_eq (hms m hm).2.1 (hms m hm).2.2]
          have hone : divided s [t] = 1 := by simp [divided, hn, Node.isUndivided]
          rw [ht.intersectionLeaves_eq hn, hcount, hone]
          exact hobjects

theorem divided_split (hts : ∀ t ∈ ts, Meetable s t) :
    divided s ts = divided s (ts.filter fun t => (s.unionMembers? t).isNone) +
      (ts.filterMap s.unionMembers?).length := by
  induction ts with
  | nil => rfl
  | cons t rest ih =>
      have hrest := ih fun u hu => hts u (List.mem_cons_of_mem _ hu)
      rw [divided_cons, hrest]
      cases hn : s.unionMembers? t with
      | none =>
          have hkept : divided s (t :: rest.filter fun t => (s.unionMembers? t).isNone) =
              divided s [t] + divided s (rest.filter fun t => (s.unionMembers? t).isNone) :=
            divided_cons
          rw [List.filter_cons_of_pos (by simp [hn]), List.filterMap_cons_none hn, hkept]
          omega
      | some ms =>
          have hone : divided s [t] = 1 := by
            simp [divided, Node.eq_union_of_members hn, Node.isUndivided]
          rw [List.filter_cons_of_neg (by simp [hn]), List.filterMap_cons_some hn, hone,
            List.length_cons]
          omega

/-- Two small unions are never kept as they are. -/
theorem not_union_of_whole (hts : ∀ t ∈ ts, Meetable s t) (hfew : divided s ts ≤ 2)
    (h : (ts.filterMap s.unionMembers?).isEmpty ||
      Limits.distributionSize < choiceCount (ts.filterMap s.unionMembers?)) :
    ∀ t ∈ ts, s.unionMembers? t = none := by
  rw [divided_split hts] at hfew
  have hsmall : ∀ members ∈ ts.filterMap s.unionMembers?, members.length ≤ unionSize := by
    intro members hmembers
    obtain ⟨t, ht, hn⟩ := List.mem_filterMap.mp hmembers
    exact ((hts t ht).of_mem_union (Node.eq_union_of_members hn)).1
  have hcount : choiceCount (ts.filterMap s.unionMembers?) ≤ Limits.distributionSize := by
    have htwo : (ts.filterMap s.unionMembers?).length ≤ 2 := by omega
    exact (choiceCount_le hsmall).trans (Nat.pow_le_pow_right (by decide) htwo)
  simp only [Nat.not_lt.mpr hcount, decide_false, Bool.or_false, List.isEmpty_iff] at h
  exact List.filterMap_eq_nil_iff.mp h

theorem divided_eq_of_extends (hs : s.Extends s') (hts : ∀ t ∈ ts, t.index < s.size) :
    divided s' ts = divided s ts :=
  List.countP_congr fun t ht => by rw [hs.node_eq t (hts t ht)]

theorem absorbMeet_spec (h : absorbMeet ts = .inl r) :
    r = .error ∨ r = .never ∨ (.never ∉ ts ∧ (r = .any ∨ ∀ t ∈ ts, t = .unknown ∨ t = r)) := by
  unfold absorbMeet at h
  split at h
  · cases h
    exact .inl rfl
  split at h
  · cases h
    exact .inr (.inl rfl)
  rename_i hnever
  have hnever : .never ∉ ts := by simpa using hnever
  split at h
  · cases h
    exact .inr (.inr ⟨hnever, .inl rfl⟩)
  have hrest : ∀ t ∈ ts, t = .unknown ∨ t ∈ ts.filter (· ≠ .unknown) := by
    intro t ht
    by_cases hunknown : t = .unknown
    · exact .inl hunknown
    · exact .inr (List.mem_filter.mpr ⟨ht, by simpa using hunknown⟩)
  generalize ts.filter (· ≠ .unknown) = us at h hrest
  match us with
  | [] =>
      cases h
      exact .inr (.inr ⟨hnever, .inr fun t ht => .inl ((hrest t ht).resolve_right List.not_mem_nil)⟩)
  | [u] =>
      cases h
      exact .inr (.inr ⟨hnever, .inr fun t ht => (hrest t ht).imp_right List.mem_singleton.mp⟩)
  | _ :: _ :: _ => cases h

theorem mem_of_absorbMeet (h : absorbMeet ts = .inr us) (ht : t ∈ ts) :
    t = .unknown ∨ t ∈ us := by
  rw [eq_filter_of_absorbMeet h, List.mem_filter]
  by_cases hunknown : t = .unknown
  · exact .inl hunknown
  · exact .inr ⟨ht, by simpa using hunknown⟩

section below

variable (hΓ : Γ.store.Formed) (hF : s.Extends Γ.store)

include hΓ hF

/-- What is below the parts of intersections is below the intersections. -/
theorem assignable_of_leaves (hts : ∀ t ∈ ts, Meetable s t)
    (h : ∀ l ∈ ts.flatMap s.intersectionLeaves, Assignable Γ r l) : ∀ t ∈ ts, Assignable Γ r t := by
  intro t ht
  have hleaf : ∀ l ∈ s.intersectionLeaves t, l ∈ ts.flatMap s.intersectionLeaves := fun l hl =>
    List.mem_flatMap.mpr ⟨t, ht, hl⟩
  cases hn : (s.node t).intersectionMembers? with
  | none =>
      rw [intersectionLeaves_of_not_intersection hn] at hleaf
      exact h t (hleaf t (List.mem_singleton_self t))
  | some ms =>
      have hn := Node.eq_intersection_of_members hn
      rw [(hts t ht).intersectionLeaves_eq hn] at hleaf
      have hms := ((hts t ht).of_mem_intersection hn).2
      exact assignable_into_intersection hΓ ((hF.node_eq t (hts t ht).known).trans hn)
        (fun m hm => (hms m hm).1.resolved_eq hF) fun m hm => h m (hleaf m hm)

end below

variable (hΓ : Γ.store.Formed)

include hΓ

/-- What is below one choice each, united, is below the unions that are chosen from. -/
theorem lowers_distribute {inner : List TypeId → Reporting TypeId}
    (hinner : ∀ s₁, s.Extends s₁ → ∀ ms, (∀ m ∈ ms, Meetable s₁ m) → divided s₁ ms ≤ 2 →
      reporting.Holds s₁ (inner ms) (Below Γ ms))
    (hts : ∀ t ∈ ts, Meetable s t) (hnever : .never ∉ ts) (hfew : divided s ts ≤ 2) :
    reporting.Holds s (do
      let results ← (choices (ts.filter fun t => (s.unionMembers? t).isNone)
        (ts.filterMap s.unionMembers?)).mapM inner
      Build.union results) (Below Γ ts) := by
  rw [divided_split hts] at hfew
  have hparts : ∀ members ∈ ts.filterMap s.unionMembers?, ∀ m ∈ members, Meetable s m := by
    intro members hmembers m hm
    obtain ⟨t, ht, hn⟩ := List.mem_filterMap.mp hmembers
    exact ((hts t ht).of_mem_union (Node.eq_union_of_members hn)).2 m hm
  have hchoices : ∀ ms ∈ choices (ts.filter fun t => (s.unionMembers? t).isNone)
      (ts.filterMap s.unionMembers?), (∀ m ∈ ms, Meetable s m) ∧ divided s ms ≤ 2 ∧
        ∀ t ∈ ts, t ∈ ms ∨ ∃ members, s.node t = .union members ∧ ∃ m ∈ members, m ∈ ms := by
    intro ms hms
    obtain ⟨picks, rfl, hlength, hpicks⟩ := exists_append_of_mem_choices hms
    refine ⟨forall_mem_choices (fun m hm => hts m (List.mem_filter.mp hm).1) hparts _ hms, ?_,
      fun t ht => ?_⟩
    · have hpicked : divided s picks ≤ picks.length := divided_le_length
      rw [divided_append]
      omega
    · cases hn : s.unionMembers? t with
      | none => exact .inl (List.mem_append_left _ (List.mem_filter.mpr ⟨ht, by simp [hn]⟩))
      | some members =>
          have hmembers : members ∈ ts.filterMap s.unionMembers? :=
            List.mem_filterMap.mpr ⟨t, ht, hn⟩
          obtain ⟨m, hm, hpick⟩ := hpicks members hmembers
          exact .inr ⟨members, Node.eq_union_of_members hn, m, hm, List.mem_append_right _ hpick⟩
  generalize choices (ts.filter fun t => (s.unionMembers? t).isNone) (ts.filterMap s.unionMembers?)
    = combinations at hchoices
  have hresults : reporting.Holds s (combinations.mapM inner) fun s' results =>
      List.Forall₂ (fun ms r => Below Γ ms s' r) combinations results := by
    refine reporting.mapM (fun h hr => hr.mono h) fun ms hms s₁ h₁ _ => ?_
    obtain ⟨hmeetable, hcount, -⟩ := hchoices ms hms
    refine hinner s₁ h₁ ms (fun m hm => (hmeetable m hm).mono h₁) ?_
    rwa [divided_eq_of_extends h₁ fun m hm => (hmeetable m hm).known]
  refine reporting.bind hresults fun s₁ results h₁ hs₁ hr => ?_
  have hknown : ∀ x ∈ results, x.index < s₁.size := forall_right_of_forall₂ hr fun _ _ h => h.1
  refine reporting_lift (building.mono (building_joined hknown) fun s₂ r h₂ _ hjoined =>
    ⟨hjoined.1, fun hF t ht => ?_⟩)
  have hsF := h₁.trans (h₂.trans hF)
  have hproper : Proper Γ t :=
    proper_of_fixed ((hts t ht).resolved_eq hsF) fun heq => hnever (heq ▸ ht)
  have hbelow : ∀ x ∈ results, Assignable Γ x t := by
    refine forall_right_of_forall₂ ((List.forall₂_and_left _ _).mpr ⟨hchoices, hr⟩) ?_
    rintro ms x ⟨⟨hmeetable, -, hcovers⟩, hx⟩
    rcases hcovers t ht with hmem | ⟨members, hn, m, hm, hmem⟩
    · exact hx.2 (h₂.trans hF) t hmem
    · exact assignable_into_union hΓ ((hsF.node_eq t (hts t ht).known).trans hn) hm
        ((hmeetable m hmem).resolved_eq hsF) (hx.2 (h₂.trans hF) m hmem)
  exact joined_assignable hΓ hjoined.2 hF hjoined.1 hproper
    (assignable_flatLeaves hΓ hs₁ (h₂.trans hF) hknown hproper hbelow)

variable (hexcess : Γ.excess = false)

include hexcess

/-- Parts of at most two types that an intersection looks into. -/
theorem lowers_intersectionAt {nesting : Nat} (hmeet : Lowers Γ s meet)
    (hts : ∀ t ∈ ts, Meetable s t) (hfew : divided s ts ≤ 2) :
    reporting.Holds s (intersectionAt meet site nesting ts) (Below Γ ts) := by
  induction nesting generalizing s ts with
  | zero =>
      refine reporting.formed fun hs => reporting.pure ⟨hs.known_of_isFixed rfl, fun _ t _ => ?_⟩
      exact assignable_of_unfolds (.bottom (.inr rfl))
  | succ nesting ih =>
      refine reporting_store fun hs => ?_
      have hflat : ∀ l ∈ TypeId.sortUnique s.numbers (ts.flatMap s.intersectionLeaves),
          Meetable s l ∧ (s.node l).intersectionMembers? = none := by
        intro l hl
        refine ⟨forall_mem_flatLeaves (p := Meetable s) (fun u ms hu hn m hm => ?_) hts l hl,
          flatLeaves_flat hs Node.intersectionMembers?_subset (fun t ht => (hts t ht).known) l hl⟩
        exact ((hu.of_mem_intersection (Node.eq_intersection_of_members hn)).2 m hm).1
      have hfewFlat : divided s (TypeId.sortUnique s.numbers (ts.flatMap s.intersectionLeaves)) ≤ 2 :=
        (divided_sortUnique_le.trans (divided_leaves_le hts)).trans hfew
      have hbelow : s.Extends Γ.store → ∀ r,
          (∀ l ∈ TypeId.sortUnique s.numbers (ts.flatMap s.intersectionLeaves), Assignable Γ r l) →
          ∀ t ∈ ts, Assignable Γ r t := by
        simp only [TypeId.mem_sortUnique]
        exact fun hF r => assignable_of_leaves hΓ hF hts
      generalize TypeId.sortUnique s.numbers (ts.flatMap s.intersectionLeaves) = flat
        at hflat hfewFlat hbelow
      cases ha : absorbMeet flat with
      | inl r =>
          refine reporting.pure ⟨?_, fun hF t ht => ?_⟩
          · rcases absorbMeet_eq_inl ha with hfixed | hr
            · exact hs.known_of_isFixed hfixed
            · exact (hflat r hr).1.known
          rcases absorbMeet_spec ha with rfl | rfl | ⟨hnever, hall⟩
          · exact assignable_of_unfolds (.bottom (.inr rfl))
          · exact assignable_of_unfolds (.bottom (.inl rfl))
          refine hbelow hF r (fun l hl => ?_) t ht
          rcases hall with rfl | hall
          · exact assignable_of_unfolds (.any (fun heq => hnever (heq ▸ hl)) rfl)
          · rcases hall l hl with rfl | rfl
            · exact assignable_of_unfolds (.top (.inr (.inl rfl)))
            · exact assignable_refl l
      | inr us =>
          obtain ⟨hsub, hplain⟩ := absorbMeet_eq_inr ha
          have hus : ∀ t ∈ us, Meetable s t := fun t ht => (hflat t (hsub.subset ht)).1
          have hnever : .never ∉ us := fun h => (hplain _ h).2.1 rfl
          have hfewUs : divided s us ≤ 2 := hsub.countP_le.trans hfewFlat
          have hlift : ∀ {s₁ r}, s.Extends s₁ → Below Γ us s₁ r → Below Γ ts s₁ r := by
            refine fun h₁ hr => ⟨hr.1, fun hF => hbelow (h₁.trans hF) _ fun l hl => ?_⟩
            rcases mem_of_absorbMeet ha hl with rfl | hl
            · exact assignable_of_unfolds (.top (.inr (.inl rfl)))
            · exact hr.2 hF l hl
          dsimp only
          split
          · rename_i hwhole
            have hnone : ∀ t ∈ us, s.unionMembers? t = none :=
              not_union_of_whole hus hfewUs hwhole
            have hsingle : ∀ t ∈ us, s.Extends Γ.store → Single Γ t := by
              refine fun t ht hF => ⟨(hus t ht).resolved_eq hF, (hplain t ht).2.1, fun us hn => ?_,
                fun us hn => ?_⟩ <;> rw [hF.node_eq t (hus t ht).known] at hn
              · simpa [unionMembers?, hn, Node.unionMembers?] using hnone t ht
              · simpa [hn, Node.intersectionMembers?] using (hflat t (hsub.subset ht)).2
            have hobjects : us.countP s.isObject ≤ 2 := by
              have heq : divided s us = us.countP s.isObject := List.countP_congr fun t ht => by
                rw [(hus t ht).divided_eq (hnone t ht) (hflat t (hsub.subset ht)).2]
              exact heq ▸ hfewUs
            exact reporting.mono (lowers_meetParts hΓ hexcess hmeet hus hsingle hobjects)
              fun s₁ r h₁ _ hr => hlift h₁ hr
          · refine reporting.mono (lowers_distribute hΓ (fun s₁ h₁ ms hms hfew => ?_) hus hnever
              hfewUs) fun s₁ r h₁ _ hr => hlift h₁ hr
            exact ih (hmeet.mono h₁) hms hfew

end distribution

section intersections

variable {Γ : Context} {s : Store} {site : Option SourceTag}

theorem lowers_intersectionIn (hΓ : Γ.store.Formed) (hexcess : Γ.excess = false) (levels : Nat) :
    Lowers Γ s (intersectionIn site levels) := by
  induction levels generalizing s with
  | zero =>
      refine fun s₁ _ t u _ _ => reporting.formed fun hs =>
        reporting.pure ⟨hs.known_of_isFixed rfl, fun _ v _ => ?_⟩
      exact assignable_of_unfolds (.bottom (.inr rfl))
  | succ levels ih =>
      intro s₁ _ t u ht hu
      exact lowers_intersectionAt hΓ hexcess ih (by simp [ht, hu]) divided_le_length

end intersections

end Normal

namespace Assignability

open Store TypeResolution.Normal

variable {setting : Setting} {s F : Store} {a b : TypeId} {verdict : Bool}

/-- The intersection of two types is assignable to both, as long as excess fields are not checked,
the unions are small and evaluation has nothing to do in the parts. -/
theorem intersection_lower_bound (hs : s.Formed) (henv : setting.environment.Known s)
    (hexcess : setting.options.excessPropertyCheck = false) (ha : Meetable s a)
    (hb : Meetable s b) :
    let made := Build.intersection [a, b] s
    ∀ t ∈ [a, b], Finds setting made.2 F made.1 t verdict → verdict = true := by
  intro made t ht h
  have hmade : ∀ F : Store, F.Formed → s.Extends made.2 ∧ made.2.Formed ∧
      Below (setting.context F) [a, b] made.2 made.1 := fun F hF =>
    lowers_intersectionIn hF hexcess (rank [a, b]) s (.refl s) a b ha hb #[] hs
  obtain ⟨hgrows, -, hknown, -⟩ := hmade s hs
  have htknown : t.index < made.2.size := by
    have htknown : t.index < s.size := by
      rcases List.mem_cons.mp ht with rfl | ht
      · exact ha.known
      · exact List.mem_singleton.mp ht ▸ hb.known
    exact Nat.lt_of_lt_of_le htknown hgrows.size_le
  obtain ⟨F', hext, hF', -, hdecided⟩ := h.decided (henv.mono hgrows) hknown htknown
  rw [hdecided F' (.refl F')]
  exact (hmade F' hF').2.2.2 hext t ht

end Assignability

end TypeResolution
