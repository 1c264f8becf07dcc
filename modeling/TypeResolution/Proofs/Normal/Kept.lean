import TypeResolution.Proofs.Normal.Form

/-!
What unions and intersections of types keep. Members are collected, unions are distributed over,
objects are merged, and what remains is put together; what holds of the components of types and of
what is put together of them in normal form, a union or an intersection keeps.
-/

namespace TypeResolution

open Store

namespace Normal

/-- What holds of the components of the types that are taken apart and of what is made of them. -/
structure Kept (K : Store → TypeId → Prop) : Prop where
  mono {s s' : Store} {t : TypeId} : s.Extends s' → K s t → K s' t
  known {s : Store} {t : TypeId} : K s t → t.index < s.size
  fixed {s : Store} {t : TypeId} : s.Formed → t.isFixed → K s t
  component {s : Store} {t c : TypeId} : K s t → (s.node t).isStructural →
    c ∈ (s.node t).components → K s c
  made {s : Store} {t : TypeId} : t.index < s.size → (s.node t).isStructural → (s.node t).InForm s →
    (∀ c ∈ (s.node t).components, K s c) → K s t

variable {K : Store → TypeId → Prop} {s : Store} {ts : List TypeId}
  {meet : List TypeId → Reporting TypeId} {site : Option SourceTag}

/-- From a store on, `meet` keeps what holds of its members. -/
def Keeps (K : Store → TypeId → Prop) (s : Store) (meet : List TypeId → Reporting TypeId) : Prop :=
  ∀ s₁, s.Extends s₁ → ∀ ts, (∀ t ∈ ts, K s₁ t) → reporting.Holds s₁ (meet ts) K

theorem Keeps.mono {s' : Store} (h : Keeps K s meet) (hs : s.Extends s') : Keeps K s' meet :=
  fun s₁ h₁ => h s₁ (hs.trans h₁)

namespace Kept

variable (M : Kept K)

include M

theorem of_mem_union {t : TypeId} {ms : List TypeId} (h : K s t)
    (hn : (s.node t).unionMembers? = some ms) : ∀ m ∈ ms, K s m := by
  have hn := Node.eq_union_of_members hn
  exact fun m hm => M.component h (by rw [hn]; rfl) (by rw [hn]; exact hm)

theorem of_mem_intersection {t : TypeId} {ms : List TypeId} (h : K s t)
    (hn : (s.node t).intersectionMembers? = some ms) : ∀ m ∈ ms, K s m := by
  have hn := Node.eq_intersection_of_members hn
  exact fun m hm => M.component h (by rw [hn]; rfl) (by rw [hn]; exact hm)

theorem of_mem_object {t : TypeId} {o : ObjectShape} (h : K s t) (hn : s.node t = .object o) :
    ∀ c ∈ (Node.object o).components, K s c :=
  fun c hc => M.component h (by rw [hn]; rfl) (by rw [hn]; exact hc)

theorem object {t : TypeId} {o : ObjectShape} (ht : t.index < s.size) (hn : s.node t = .object o)
    (ho : ∀ c ∈ (Node.object o).components, K s c) : K s t :=
  M.made ht (by rw [hn]; rfl) (by rw [hn]; trivial) (by rw [hn]; exact ho)

theorem intern {n : Node} (hn : n.isStructural) (hobject : ∀ o, n ≠ .object o)
    (hparts : ∀ c ∈ n.components, K s c)
    (hform : ∀ s', s'.numbers = s.numbers → (∀ c ∈ n.components, s'.node c = s.node c) →
      n.InForm s') :
    building.Holds s (Build.intern n) K := by
  refine building.mono (building_node (fun c hc => M.known (hparts c hc)) hobject)
    fun s' r h' _ hr => ?_
  obtain ⟨hknown, hr⟩ := hr
  refine M.made hknown (hr ▸ hn) ?_ ?_
  · rw [hr]
    exact hform s' h'.numbers_eq fun c hc => h'.node_eq c (M.known (hparts c hc))
  · rw [hr]
    exact fun c hc => M.mono h' (hparts c hc)

/-- A union keeps what holds of its members. -/
theorem union (hts : ∀ t ∈ ts, K s t) : building.Holds s (Build.union ts) K := by
  refine building.formed fun hs => ?_
  refine building.mono (building_joined fun t ht => M.known (hts t ht)) fun s' r h' hs' hr => ?_
  have hkept : ∀ l ∈ TypeId.sortUnique s.numbers (ts.flatMap s.unionLeaves), K s l :=
    forall_mem_flatLeaves (fun u ms hu => M.of_mem_union hu) hts
  have hflat : ∀ l ∈ TypeId.sortUnique s.numbers (ts.flatMap s.unionLeaves), (s.node l).unionMembers? = none :=
    flatLeaves_flat hs Node.unionMembers?_subset fun t ht => M.known (hts t ht)
  have hsorted : s.InOrder (TypeId.sortUnique s.numbers (ts.flatMap s.unionLeaves)) :=
    TypeId.sorted_sortUnique _
  obtain ⟨hknown, hr⟩ := hr
  generalize TypeId.sortUnique s.numbers (ts.flatMap s.unionLeaves) = flat at hkept hflat hsorted hr
  have habsorbed : ∀ m ∈ s.absorbLiterals (flat.filter (· ≠ .never)), K s m := by
    intro m hm
    rcases mem_of_mem_absorbLiterals hm with hm | ⟨rfl, -, -⟩
    · exact hkept m (List.mem_filter.mp hm).1
    · exact M.fixed hs rfl
  cases hr with
  | error _ | any _ | unknown _ | never _ => exact M.fixed hs' rfl
  | single hone =>
      rw [hone] at habsorbed
      exact M.mono h' (habsorbed r (by simp))
  | @union _ ms herror hany hunknown hms hmany hn =>
      subst hms
      refine M.made hknown (by rw [hn]; rfl) ?_ ?_
      · rw [hn]
        refine ⟨hmany, .congr (sorted_absorbLiterals (hsorted.filter _)) h'.numbers_eq, ?_⟩
        exact (joinForm_absorbLiterals hs hflat herror hany hunknown).congr fun m hm =>
          h'.node_eq m (M.known (habsorbed m hm))
      · rw [hn]
        exact fun m hm => M.mono h' (habsorbed m hm)

theorem rawIntersection (hts : ∀ t ∈ ts, K s t) (hform : MeetForm s (TypeId.sortUnique s.numbers ts)) :
    building.Holds s (Build.rawIntersection ts) K := by
  refine building.formed fun hs => ?_
  have hsorted : s.InOrder (TypeId.sortUnique s.numbers ts) :=
    TypeId.sorted_sortUnique _
  have hkept : ∀ t ∈ TypeId.sortUnique s.numbers ts, K s t := fun t ht => hts t (TypeId.mem_sortUnique.mp ht)
  refine building_members ?_
  generalize TypeId.sortUnique s.numbers ts = us at hsorted hkept hform
  match us with
  | [] => exact building.pure (M.fixed hs rfl)
  | [t] => exact building.pure (hkept t (by simp))
  | t :: u :: rest =>
      exact M.intern rfl (by simp) hkept fun s' hnumbers h =>
        ⟨by simp, hsorted.congr hnumbers, hform.congr h⟩

theorem makes_object {o : ObjectShape} (ho : ∀ c ∈ (Node.object o).components, K s c) :
    building.Holds s (Build.object o) fun s' t =>
      K s' t ∧ ∃ p, s'.node t = .object p ∧ p.isEmpty = o.isEmpty := by
  refine building.mono (building_intern fun c hc => M.known (ho c hc)) fun s' t h' _ ht => ?_
  obtain ⟨p, hn, hp⟩ := Node.exists_object_of_identity_eq ht.2
  have hempty : p.isEmpty = o.isEmpty := by
    have hperm := ObjectShape.perm_of_sorted_eq hp
    simp only [ObjectShape.isEmpty, ObjectShape.stringIndex_of_sorted_eq hp, hperm.isEmpty_eq]
  refine ⟨M.object ht.1 hn fun c hc => M.mono h' (ho c ?_), p, hn, hempty⟩
  exact (Node.mem_components_of_identity_eq ht.2 c).mp (by rw [hn]; exact hc)

/-- An object whose parts have been replaced. -/
theorem rebuildObject {t : TypeId} (ht : t.index < s.size) {o p : ObjectShape}
    (hn : s.node t = .object o) (hp : ∀ c ∈ (Node.object p).components, K s c) :
    building.Holds s (rebuildObject t o p) K := by
  unfold Normal.rebuildObject
  split
  · rename_i heq
    exact building.pure (M.object ht hn (heq ▸ hp))
  · refine building.bind (M.makes_object hp) fun s₁ r h₁ _ hr => ?_
    have hcopy : building.Holds s₁ (Build.copyFieldOrigins t r (p.fields.map (·.name))) fun _ _ =>
        True := building_quiet (alike_copyFieldOrigins _ _ _ _) trivial
    exact building.bind hcopy fun s₂ _ h₂ _ _ => building.pure (M.mono h₂ hr.1)

section merge

variable (hmeet : Keeps K s meet)

include hmeet

theorem keeps_meetFields {old new : Owned} (hold : K s old.field.type) (hnew : K s new.field.type) :
    reporting.Holds s (meetFields meet site old new) fun s' f => K s' f.field.type := by
  have hpair : ∀ t ∈ [old.field.type, new.field.type], K s t := by simp [hold, hnew]
  unfold meetFields
  split
  on_goal 1 => refine reporting.bind (reporting.pure hold) fun s₁ merged _ _ hm => ?_
  on_goal 2 => refine reporting.bind (hmeet s (.refl s) _ hpair) fun s₁ merged _ _ hm => ?_
  all_goals
    dsimp only
    split
    · exact reporting.bind reporting_reportConflict fun s₂ _ h₂ _ _ =>
        reporting.pure (M.mono h₂ hm)
    · exact reporting.pure hm

theorem keeps_mergeField {new : Owned} {fields : List Owned} (hnew : K s new.field.type)
    (hfields : ∀ f ∈ fields, K s f.field.type) :
    reporting.Holds s (mergeField meet site new fields) fun s' merged =>
      (∀ f ∈ merged, K s' f.field.type) ∧ merged ≠ [] := by
  induction fields with
  | nil => exact reporting.pure ⟨by simpa using hnew, by simp⟩
  | cons old rest ih =>
      obtain ⟨hold, hrest⟩ := List.forall_mem_cons.mp hfields
      unfold mergeField
      split
      · refine reporting.bind (M.keeps_meetFields hmeet hold hnew) fun s₁ f h₁ _ hf => ?_
        refine reporting.pure ⟨List.forall_mem_cons.mpr ⟨hf, fun g hg => ?_⟩, by simp⟩
        exact M.mono h₁ (hrest g hg)
      · refine reporting.bind (ih hrest) fun s₁ merged h₁ _ hm => ?_
        exact reporting.pure ⟨List.forall_mem_cons.mpr ⟨M.mono h₁ hold, hm.1⟩, by simp⟩

omit M in
theorem keeps_mergeIndex {old new : Option TypeId} (hold : ∀ t, old = some t → K s t)
    (hnew : ∀ t, new = some t → K s t) :
    reporting.Holds s (mergeIndex meet old new) fun s' merged =>
      (∀ t, merged = some t → K s' t) ∧ (merged = none → old = none ∧ new = none) := by
  cases old with
  | none => exact reporting.pure ⟨hnew, by simp⟩
  | some a =>
      cases new with
      | none => exact reporting.pure ⟨hold, by simp⟩
      | some b =>
          have hab : ∀ t ∈ [a, b], K s t := by simpa using ⟨hold a rfl, hnew b rfl⟩
          refine reporting.bind (hmeet s (.refl s) _ hab) fun s₁ t _ _ ht => ?_
          refine reporting.pure ⟨?_, by simp⟩
          rintro u ⟨⟩
          exact ht

omit M hmeet in
/-- What has been merged of the objects in `done`, which are told to be empty or not in `s₀`. -/
structure Merging (K : Store → TypeId → Prop) (s₀ s : Store) (done : List TypeId)
    (merged : List Owned × Option TypeId) : Prop where
  fields : ∀ f ∈ merged.1, K s f.field.type
  index : ∀ t, merged.2 = some t → K s t
  filled : merged.1 = [] → merged.2 = none → ∀ o ∈ done, s₀.isEmptyObject o

theorem keeps_mergeObject {s₀ : Store} {done : List TypeId} {merged : List Owned × Option TypeId}
    {object : TypeId} (hmerged : Merging K s₀ s done merged) (hobject : K s object)
    (hisObject : s.isObject object) (hempty : s₀.isEmptyObject object = s.isEmptyObject object) :
    reporting.Holds s (mergeObject meet site merged object)
      (Merging K s₀ · (done ++ [object])) := by
  refine reporting_store fun _ => ?_
  obtain ⟨shape, hn⟩ := node_of_isObject hisObject
  have hshape : s.objectShape? object = some shape := by rw [objectShape?, hn]
  have hparts := M.of_mem_object hobject hn
  rw [hshape]
  have hfold : reporting.Holds s
      (shape.fields.foldlM (fun fields f => mergeField meet site ⟨f, object⟩ fields) merged.1)
      fun s' fields => (∀ f ∈ fields, K s' f.field.type) ∧
        (fields = [] → merged.1 = [] ∧ shape.fields = []) := by
    refine reporting.foldlM (P := fun s' (fs : List Field) (fields : List Owned) =>
      (∀ f ∈ fields, K s' f.field.type) ∧ (fields = [] → merged.1 = [] ∧ fs = []))
      ⟨hmerged.fields, by simp⟩ fun f hf s₁ fs fields h₁ _ hprev => ?_
    have hf : K s₁ (Owned.mk f object).field.type :=
      M.mono h₁ (hparts f.type (List.mem_append_left _ (List.mem_map_of_mem hf)))
    exact reporting.mono (M.keeps_mergeField (hmeet.mono h₁) hf hprev.1)
      fun s₂ all _ _ hall => ⟨hall.1, fun h => absurd h hall.2⟩
  refine reporting.bind hfold fun s₁ fields h₁ _ hf => ?_
  have hold : ∀ t, merged.2 = some t → K s₁ t := fun t ht => M.mono h₁ (hmerged.index t ht)
  have hnew : ∀ t, shape.stringIndex = some t → K s₁ t := fun t ht =>
    M.mono h₁ (hparts t (by simp [Node.components, ht]))
  refine reporting.bind (keeps_mergeIndex (hmeet.mono h₁) hold hnew) fun s₂ index h₂ _ hi => ?_
  refine reporting.pure ⟨fun f hmem => M.mono h₂ (hf.1 f hmem), hi.1, fun hnil hnone o ho => ?_⟩
  obtain ⟨hfields, hshapeFields⟩ := hf.2 hnil
  obtain ⟨hindex, hshapeIndex⟩ := hi.2 hnone
  rcases List.mem_append.mp ho with ho | ho
  · exact hmerged.filled hfields hindex o ho
  · rw [List.mem_singleton.mp ho, hempty]
    simp [isEmptyObject, hshape, ObjectShape.isEmpty, hshapeFields, hshapeIndex]

theorem keeps_mergeObjects {objects : List TypeId}
    (hobjects : ∀ o ∈ objects, K s o ∧ s.isObject o) :
    reporting.Holds s (mergeObjects meet site objects) fun s' t =>
      K s' t ∧ s'.isObject t ∧ (s'.isEmptyObject t → ∀ o ∈ objects, s.isEmptyObject o) := by
  have hfold : reporting.Holds s (objects.foldlM (mergeObject meet site) ([], none))
      (Merging K s · objects) := by
    refine reporting.foldlM (P := Merging K s) ⟨by simp, by simp, by simp⟩
      fun o ho s₁ done merged h₁ _ hm => ?_
    obtain ⟨hkept, hobject⟩ := hobjects o ho
    have hnode := h₁.node_eq o (M.known hkept)
    refine M.keeps_mergeObject (hmeet.mono h₁) hm (M.mono h₁ hkept) ?_ ?_
    · simpa only [isObject, objectShape?, hnode] using hobject
    · simp only [isEmptyObject, objectShape?, hnode]
  refine reporting.bind hfold fun s₁ merged h₁ _ hm => ?_
  have hparts : ∀ c ∈ (Node.object ⟨merged.1.map (·.field), merged.2⟩).components, K s₁ c := by
    intro c hc
    simp only [Node.components, List.map_map, List.mem_append, List.mem_map, Option.mem_toList] at hc
    rcases hc with ⟨f, hf, rfl⟩ | hc
    · exact hm.fields f hf
    · exact hm.index c hc
  refine reporting.bind (reporting_lift (M.makes_object hparts)) fun s₂ t h₂ _ ht => ?_
  refine reporting.bind (reporting_copyOrigins merged.1) fun s₃ _ h₃ _ _ => ?_
  obtain ⟨hkept, p, hn, hp⟩ := ht
  have hn := (h₃.node_eq t (M.known hkept)).trans hn
  refine reporting.pure ⟨M.mono h₃ hkept, by simp [isObject, objectShape?, hn], fun hempty => ?_⟩
  simp only [isEmptyObject, objectShape?, hn, Option.any_some, hp] at hempty
  obtain ⟨hfields, hindex⟩ : merged.1 = [] ∧ merged.2 = none := by
    simpa [ObjectShape.isEmpty] using hempty
  exact hm.filled hfields hindex

end merge

theorem keeps_meetParts (hmeet : Keeps K s meet) (hts : ∀ t ∈ ts, K s t)
    (hsorted : s.InOrder ts) (hflat : ∀ t ∈ ts, (s.node t).intersectionMembers? = none)
    (hplain : ∀ t ∈ ts, t ≠ .error ∧ t ≠ .never ∧ t ≠ .any ∧ t ≠ .unknown)
    (hcrowded : crowded s ts) : reporting.Holds s (meetParts meet site ts) K := by
  refine reporting_store fun hs => ?_
  cases hr : reducePrimitives s ts with
  | none => exact reporting.pure (M.fixed hs rfl)
  | some us =>
      have hsub := sublist_reducePrimitives hr
      have hirreducible := irreducible_of_reducePrimitives hs (fun t ht => M.known (hts t ht)) hr
      have husSorted : s.InOrder us := hsorted.sublist hsub
      have hus : ∀ t ∈ us, K s t := fun t ht => hts t (hsub.subset ht)
      have husCrowded : crowded s us := by
        rw [crowded_eq_of_sorted husSorted hsorted fun t ht =>
          ⟨fun h => hsub.subset h, mem_of_reducePrimitives hs hr ht⟩]
        exact hcrowded
      dsimp only
      split
      · rename_i hmany
        have hobjects : ∀ o ∈ us.filter s.isObject, K s o ∧ s.isObject o := fun o ho =>
          ⟨hus o (List.mem_filter.mp ho).1, (List.mem_filter.mp ho).2⟩
        refine reporting.bind (M.keeps_mergeObjects hmeet hobjects) fun s₁ merged h₁ hs₁ hm => ?_
        obtain ⟨hmerged, hobject, hempty⟩ := hm
        have hnode : ∀ m ∈ us, s₁.node m = s.node m := fun m hm => h₁.node_eq m (M.known (hus m hm))
        have hisObject : ∀ m ∈ us, s₁.isObject m = s.isObject m := fun m hm => by
          simp only [isObject, objectShape?, hnode m hm]
        generalize hrest : merged :: us.filter (!(us.filter s.isObject).contains ·) = rest
        have hmem : ∀ m, m ∈ rest ↔ m = merged ∨ (m ∈ us ∧ s₁.isObject m = false) := by
          intro m
          rw [← hrest]
          simp only [List.mem_cons, List.mem_filter, Bool.not_eq_true', List.contains_eq_mem,
            decide_eq_false_iff_not, not_and, Bool.not_eq_true]
          refine or_congr_right (and_congr_right fun hm => ?_)
          rw [hisObject m hm]
          exact ⟨fun h => h hm, fun h _ => h⟩
        refine reporting_lift (M.rawIntersection (fun m hm => ?_) ?_)
        · rcases (hmem m).mp hm with rfl | ⟨hm, -⟩
          · exact hmerged
          · exact M.mono h₁ (hus m hm)
        refine meetForm_merged hs₁ merged (husSorted.congr h₁.numbers_eq) (TypeId.sorted_sortUnique _)
          (fun m hm => ?_) (fun m hm => hplain m (hsub.subset hm)) ?_ (hirreducible.congr hnode) hobject
          (fun he o ho hobj => ?_) ?_ fun m => ?_
        · rw [hnode m hm]
          exact hflat m (hsub.subset hm)
        · simp only [crowded, filterMap_unionMembers?_congr hnode]
          exact husCrowded
        · have hoEmpty := hempty he o (List.mem_filter.mpr ⟨ho, hisObject o ho ▸ hobj⟩)
          simpa only [isEmptyObject, objectShape?, hnode o ho] using hoEmpty
        · obtain ⟨o, ho⟩ := List.exists_mem_of_length_pos (Nat.lt_of_succ_lt hmany)
          obtain ⟨ho, hobj⟩ := List.mem_filter.mp ho
          exact ⟨o, ho, (hisObject o ho).trans hobj⟩
        · rw [TypeId.mem_sortUnique, hmem]
      · rename_i hfew
        refine reporting_lift (M.rawIntersection hus ?_)
        rw [TypeId.sortUnique_of_sorted husSorted]
        refine ⟨fun m hm => hflat m (hsub.subset hm), fun m hm => hplain m (hsub.subset hm), husCrowded,
          hirreducible, fun m hm u hu hmo huo => ?_⟩
        exact eq_of_length_le_one (Nat.le_of_not_lt hfew) m (List.mem_filter.mpr ⟨hm, hmo⟩) u
          (List.mem_filter.mpr ⟨hu, huo⟩)

theorem keeps_intersectionAt {nesting : Nat} (hmeet : Keeps K s meet) (hts : ∀ t ∈ ts, K s t) :
    reporting.Holds s (intersectionAt meet site nesting ts) K := by
  induction nesting generalizing s ts with
  | zero => exact reporting.formed fun hs => reporting.pure (M.fixed hs rfl)
  | succ nesting ih =>
      refine reporting_store fun hs => ?_
      have hkept : ∀ l ∈ TypeId.sortUnique s.numbers (ts.flatMap s.intersectionLeaves), K s l :=
        forall_mem_flatLeaves (fun u ms hu => M.of_mem_intersection hu) hts
      have hflat : ∀ l ∈ TypeId.sortUnique s.numbers (ts.flatMap s.intersectionLeaves),
          (s.node l).intersectionMembers? = none :=
        flatLeaves_flat hs Node.intersectionMembers?_subset fun t ht => M.known (hts t ht)
      have hsorted : s.InOrder (TypeId.sortUnique s.numbers (ts.flatMap s.intersectionLeaves)) :=
    TypeId.sorted_sortUnique _
      generalize TypeId.sortUnique s.numbers (ts.flatMap s.intersectionLeaves) = flat at hkept hflat hsorted
      cases ha : absorbMeet flat with
      | inl t =>
          refine reporting.pure ?_
          rcases absorbMeet_eq_inl ha with ht | ht
          · exact M.fixed hs ht
          · exact hkept t ht
      | inr us =>
          obtain ⟨hsub, hplain⟩ := absorbMeet_eq_inr ha
          have hus : ∀ t ∈ us, K s t := fun t ht => hkept t (hsub.subset ht)
          dsimp only
          split
          · rename_i hcrowded
            exact M.keeps_meetParts hmeet hus (hsorted.sublist hsub)
              (fun t ht => hflat t (hsub.subset ht)) hplain hcrowded
          · have hchoices : ∀ ms ∈ choices (us.filter fun t => (s.unionMembers? t).isNone)
                (us.filterMap s.unionMembers?), ∀ m ∈ ms, K s m := by
              refine forall_mem_choices (p := K s) (fun m hm => ?_) fun members hmembers => ?_
              · exact hus m (List.mem_filter.mp hm).1
              · obtain ⟨t, ht, hn⟩ := List.mem_filterMap.mp hmembers
                exact M.of_mem_union (hus t ht) hn
            refine reporting.bind (reporting.mapM (P := fun s' _ r => K s' r)
              (fun h hr => M.mono h hr) fun ms hms s₁ h₁ _ => ?_) fun s₁ results h₁ _ hr => ?_
            · exact ih (hmeet.mono h₁) fun m hm => M.mono h₁ (hchoices ms hms m hm)
            · exact reporting_lift (M.union (forall_right_of_forall₂ hr fun _ _ h => h))

theorem keeps_intersectionIn (levels : Nat) : Keeps K s (intersectionIn site levels) := by
  induction levels generalizing s with
  | zero => exact fun s₁ _ ts _ => reporting.formed fun hs => reporting.pure (M.fixed hs rfl)
  | succ levels ih => exact fun s₁ _ ts hts => M.keeps_intersectionAt ih hts

/-- An intersection keeps what holds of its members. -/
theorem intersection (hts : ∀ t ∈ ts, K s t) :
    reporting.Holds s (Reporting.intersection site ts) K :=
  M.keeps_intersectionIn _ s (.refl s) ts hts

end Kept

end Normal

end TypeResolution
