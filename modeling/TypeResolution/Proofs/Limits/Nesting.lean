import TypeResolution.Proofs.Limits.Descent
import TypeResolution.Proofs.Normal.Form

/-!
Intersections end without a guard. An intersection re-enters itself through its unions, for members
that are nested less deep, and through the fields that it merges, for types that may be new but in
which objects are nested less deep. So the bounds that it carries along never bind.
-/

namespace TypeResolution

open Store

/-- Nests objects at most `n` deep where unions, intersections and objects are taken apart. -/
inductive Nests (s : Store) : Nat → TypeId → Prop
  | union {n : Nat} {t : TypeId} {members : List TypeId} : t.index < s.size →
      s.node t = .union members → (∀ m ∈ members, Nests s n m) → Nests s n t
  | intersection {n : Nat} {t : TypeId} {members : List TypeId} : t.index < s.size →
      s.node t = .intersection members → (∀ m ∈ members, Nests s n m) → Nests s n t
  | object {n : Nat} {t : TypeId} {o : ObjectShape} : t.index < s.size →
      s.node t = .object o → (∀ c ∈ (Node.object o).components, Nests s n c) → Nests s (n + 1) t
  | leaf {n : Nat} {t : TypeId} : t.index < s.size → (∀ members, s.node t ≠ .union members) →
      (∀ members, s.node t ≠ .intersection members) → (∀ o, s.node t ≠ .object o) → Nests s n t

namespace Nests

variable {s s' : Store} {n m : Nat} {t : TypeId}

theorem known (h : Nests s n t) : t.index < s.size := by
  cases h <;> assumption

theorem mono (h : Nests s n t) (hs : s.Extends s') : Nests s' n t := by
  have hsize : ∀ {i : Nat}, i < s.size → i < s'.size := fun h => Nat.lt_of_lt_of_le h hs.size_le
  induction h with
  | union hlt hn _ ih => exact .union (hsize hlt) ((hs.node_eq _ hlt).trans hn) ih
  | intersection hlt hn _ ih => exact .intersection (hsize hlt) ((hs.node_eq _ hlt).trans hn) ih
  | object hlt hn _ ih => exact .object (hsize hlt) ((hs.node_eq _ hlt).trans hn) ih
  | leaf hlt hu hi ho =>
      refine .leaf (hsize hlt) ?_ ?_ ?_ <;> rw [hs.node_eq _ hlt]
      · exact hu
      · exact hi
      · exact ho

theorem of_le (h : Nests s n t) (hle : n ≤ m) : Nests s m t := by
  induction h generalizing m with
  | union hlt hn _ ih => exact .union hlt hn fun c hc => ih c hc hle
  | intersection hlt hn _ ih => exact .intersection hlt hn fun c hc => ih c hc hle
  | object hlt hn _ ih =>
      obtain ⟨k, rfl⟩ : ∃ k, m = k + 1 := ⟨m - 1, by omega⟩
      exact .object hlt hn fun c hc => ih c hc (by omega)
  | leaf hlt hu hi ho => exact .leaf hlt hu hi ho

theorem min (h : Nests s n t) (h' : Nests s m t) : Nests s (min n m) t := by
  rcases Nat.le_total n m with hle | hle
  · rwa [Nat.min_eq_left hle]
  · rwa [Nat.min_eq_right hle]

/-- Components have smaller ids, so the id bounds the nesting. -/
theorem of_known (hs : s.Formed) (ht : t.index < s.size) : Nests s (t.index + 1) t := by
  induction hi : t.index using Nat.strongRecOn generalizing t with
  | _ i ih =>
      subst hi
      have hparts : ∀ c ∈ (s.node t).components, Nests s t.index c := by
        intro c hc
        have hlt := hs.descends t ht c hc
        exact (ih c.index hlt (Nat.lt_trans hlt ht) rfl).of_le hlt
      cases hn : s.node t with
      | union members =>
          rw [hn] at hparts
          exact .union ht hn fun c hc => (hparts c hc).of_le (Nat.le_succ _)
      | intersection members =>
          rw [hn] at hparts
          exact .intersection ht hn fun c hc => (hparts c hc).of_le (Nat.le_succ _)
      | object o =>
          rw [hn] at hparts
          exact .object ht hn hparts
      | _ => exact .leaf ht (by simp [hn]) (by simp [hn]) (by simp [hn])

theorem of_fixed (hs : s.Formed) (hfixed : t.isFixed) : Nests s n t := by
  obtain ⟨i⟩ := t
  have hi : i < TypeId.fixedCount := by simpa [TypeId.isFixed] using hfixed
  have hnode := hs.node_fixed hi
  refine .leaf (hs.known_of_isFixed hfixed) ?_ ?_ ?_ <;> rw [hnode] <;>
    have hi : i < 12 := hi <;> interval_cases i <;> simp [Node.fixed]

theorem of_mem_union {members : List TypeId} (h : Nests s n t)
    (hn : (s.node t).unionMembers? = some members) : ∀ m ∈ members, Nests s n m := by
  have hn := Node.eq_union_of_members hn
  cases h with
  | union _ hn' hm => rw [hn'] at hn; cases hn; exact hm
  | intersection _ hn' _ => rw [hn'] at hn; cases hn
  | object _ hn' _ => rw [hn'] at hn; cases hn
  | leaf _ hu _ _ => exact absurd hn (hu _)

theorem of_mem_intersection {members : List TypeId} (h : Nests s n t)
    (hn : (s.node t).intersectionMembers? = some members) : ∀ m ∈ members, Nests s n m := by
  have hn := Node.eq_intersection_of_members hn
  cases h with
  | union _ hn' _ => rw [hn'] at hn; cases hn
  | intersection _ hn' hm => rw [hn'] at hn; cases hn; exact hm
  | object _ hn' _ => rw [hn'] at hn; cases hn
  | leaf _ _ hi _ => exact absurd hn (hi _)

theorem of_object {o : ObjectShape} (h : Nests s n t) (hn : s.node t = .object o) :
    ∃ k, n = k + 1 ∧ ∀ c ∈ (Node.object o).components, Nests s k c := by
  cases h with
  | union _ hn' _ => rw [hn'] at hn; cases hn
  | intersection _ hn' _ => rw [hn'] at hn; cases hn
  | object _ hn' hc => rw [hn'] at hn; cases hn; exact ⟨_, rfl, hc⟩
  | leaf _ _ _ ho => exact absurd hn (ho _)

end Nests

def reports : Agreements Reporting where
  Hold s m m' Q := ∀ ds, builds.Hold s (m ds) (m' ds) fun s' r => Q s' r.1
  pure h _ := builds.pure h
  bind hm hf ds := builds.bind (hm ds) fun s₁ r h₁ hs₁ hQ => hf s₁ r.1 h₁ hs₁ hQ r.2
  formed h ds := builds.formed fun hs => h hs ds

section reports

variable {s : Store} {α β : Type} {Q : Store → α → Prop} {Q' : Store → β → Prop}

theorem reports_of_reporting {m : Reporting α} (h : reporting.Holds s m Q) : reports.Hold s m m Q :=
  fun ds => builds_of_building (h ds)

theorem reports_store {f f' : Store → Reporting β}
    (h : s.Formed → reports.Hold s (f s) (f' s) Q') :
    reports.Hold s (getThe Store >>= f) (getThe Store >>= f') Q' :=
  fun ds hs => h hs ds hs

end reports

section makes

variable {s : Store} {n : Nat} {ts : List TypeId}

/-- A union nests objects no deeper than its members. -/
theorem nests_union (hts : ∀ t ∈ ts, Nests s n t) :
    building.Holds s (Build.union ts) (Nests · n) := by
  refine building.formed fun hs => ?_
  refine building.mono (building_joined fun t ht => (hts t ht).known) fun s' r h' hs' hr => ?_
  have hflat : ∀ l ∈ TypeId.sortUnique s.numbers (ts.flatMap s.unionLeaves), Nests s n l :=
    forall_mem_flatLeaves (fun u ms hu => hu.of_mem_union) hts
  obtain ⟨hknown, hr⟩ := hr
  generalize TypeId.sortUnique s.numbers (ts.flatMap s.unionLeaves) = flat at hflat hr
  have habsorbed : ∀ m ∈ s.absorbLiterals (flat.filter (· ≠ .never)), Nests s n m := by
    intro m hm
    rcases mem_of_mem_absorbLiterals hm with hm | ⟨rfl, -, -⟩
    · exact hflat m (List.mem_filter.mp hm).1
    · exact .of_fixed hs rfl
  cases hr with
  | error _ | any _ | unknown _ | never _ => exact .of_fixed hs' rfl
  | single hone =>
      rw [hone] at habsorbed
      exact (habsorbed r (by simp)).mono h'
  | @union _ ms _ _ _ hms _ hn =>
      subst hms
      exact .union hknown hn fun m hm => (habsorbed m hm).mono h'

theorem nests_rawIntersection (hts : ∀ t ∈ ts, Nests s n t) :
    building.Holds s (Build.rawIntersection ts) (Nests · n) := by
  refine building.formed fun hs => ?_
  have hts : ∀ t ∈ TypeId.sortUnique s.numbers ts, Nests s n t :=
    fun t ht => hts t (TypeId.mem_sortUnique.mp ht)
  refine building_members ?_
  generalize TypeId.sortUnique s.numbers ts = us at hts
  match us with
  | [] => exact building.pure (.of_fixed hs rfl)
  | [t] => exact building.pure (hts t (by simp))
  | t :: u :: rest =>
      refine building.mono (building_node (fun c hc => (hts c hc).known) (by simp))
        fun s' r h' _ hr => ?_
      exact .intersection hr.1 hr.2 fun m hm => (hts m hm).mono h'

theorem nests_object {o : ObjectShape} (ho : ∀ c ∈ (Node.object o).components, Nests s n c) :
    building.Holds s (Build.object o) (Nests · (n + 1)) := by
  refine building.mono (building_intern fun c hc => (ho c hc).known) fun s' t h' _ ht => ?_
  obtain ⟨p, hn, -⟩ := Node.exists_object_of_identity_eq ht.2
  refine .object ht.1 hn fun c hc => (ho c ?_).mono h'
  exact (Node.mem_components_of_identity_eq ht.2 c).mp (by rw [hn]; exact hc)

end makes

namespace Normal

section merge

variable {s : Store} {k : Nat} {meet meet' : List TypeId → Reporting TypeId}
  {site : Option SourceTag}

/-- From a store on, `meet` and `meet'` do the same for types that nest objects at most `k` deep,
and nest them no deeper. -/
def MeetAlike (k : Nat) (s : Store) (meet meet' : List TypeId → Reporting TypeId) : Prop :=
  ∀ s₁, s.Extends s₁ → ∀ ts, (∀ t ∈ ts, Nests s₁ k t) →
    reports.Hold s₁ (meet ts) (meet' ts) (Nests · k)

theorem MeetAlike.mono {s' : Store} (h : MeetAlike k s meet meet') (hs : s.Extends s') :
    MeetAlike k s' meet meet' :=
  fun s₁ h₁ => h s₁ (hs.trans h₁)

variable (hmeet : MeetAlike k s meet meet')

include hmeet

theorem alike_meetFields {old new : Owned} (hold : Nests s k old.field.type)
    (hnew : Nests s k new.field.type) :
    reports.Hold s (meetFields meet site old new) (meetFields meet' site old new)
      fun s' f => Nests s' k f.field.type := by
  have hpair : ∀ t ∈ [old.field.type, new.field.type], Nests s k t := by simp [hold, hnew]
  unfold meetFields
  split
  on_goal 1 => refine reports.bind (reports.pure (Q := (Nests · k)) hold) fun s₁ merged _ _ hm => ?_
  on_goal 2 => refine reports.bind (hmeet s (.refl s) _ hpair) fun s₁ merged _ _ hm => ?_
  all_goals
    dsimp only
    split
    · exact reports.bind (reports_of_reporting reporting_reportConflict) fun s₂ _ h₂ _ _ =>
        reports.pure (hm.mono h₂)
    · exact reports.pure hm

theorem alike_mergeField {new : Owned} {fields : List Owned} (hnew : Nests s k new.field.type)
    (hfields : ∀ f ∈ fields, Nests s k f.field.type) :
    reports.Hold s (mergeField meet site new fields) (mergeField meet' site new fields)
      fun s' merged => ∀ f ∈ merged, Nests s' k f.field.type := by
  induction fields with
  | nil => exact reports.pure (by simpa using hnew)
  | cons old rest ih =>
      obtain ⟨hold, hrest⟩ := List.forall_mem_cons.mp hfields
      unfold mergeField
      split
      · refine reports.bind (alike_meetFields hmeet hold hnew) fun s₁ f h₁ _ hf => ?_
        exact reports.pure (List.forall_mem_cons.mpr ⟨hf, fun g hg => (hrest g hg).mono h₁⟩)
      · refine reports.bind (ih hrest) fun s₁ merged h₁ _ hm => ?_
        exact reports.pure (List.forall_mem_cons.mpr ⟨hold.mono h₁, hm⟩)

theorem alike_mergeIndex {old new : Option TypeId} (hold : ∀ t, old = some t → Nests s k t)
    (hnew : ∀ t, new = some t → Nests s k t) :
    reports.Hold s (mergeIndex meet old new) (mergeIndex meet' old new)
      fun s' merged => ∀ t, merged = some t → Nests s' k t := by
  cases old with
  | none => exact reports.pure hnew
  | some a =>
      cases new with
      | none => exact reports.pure hold
      | some b =>
          have hab : ∀ t ∈ [a, b], Nests s k t := by simpa using ⟨hold a rfl, hnew b rfl⟩
          refine reports.bind (hmeet s (.refl s) _ hab) fun s₁ t _ _ ht => reports.pure ?_
          rintro u ⟨⟩
          exact ht

omit hmeet in
/-- What has been merged of some objects. -/
def Merged (k : Nat) (s : Store) (merged : List Owned × Option TypeId) : Prop :=
  (∀ f ∈ merged.1, Nests s k f.field.type) ∧ ∀ t, merged.2 = some t → Nests s k t

theorem alike_mergeObject {merged : List Owned × Option TypeId} {object : TypeId}
    (hmerged : Merged k s merged) (hobject : Nests s (k + 1) object) :
    reports.Hold s (mergeObject meet site merged object) (mergeObject meet' site merged object)
      (Merged k) := by
  refine reports_store fun _ => ?_
  cases hshape : s.objectShape? object with
  | none => exact reports.pure hmerged
  | some shape =>
      have hn : s.node object = .object shape := by
        unfold objectShape? at hshape
        split at hshape <;> simp_all
      obtain ⟨j, hj, hparts⟩ := hobject.of_object hn
      obtain rfl : j = k := by omega
      have hfields : reports.Hold s
          (shape.fields.foldlM (fun fields f => mergeField meet site ⟨f, object⟩ fields) merged.1)
          (shape.fields.foldlM (fun fields f => mergeField meet' site ⟨f, object⟩ fields) merged.1)
          fun s' fields => ∀ f ∈ fields, Nests s' j f.field.type := by
        refine reports.foldlM hmerged.1 fun f hf s₁ fields h₁ hfs => ?_
        have hf : Nests s j f.type := hparts f.type (List.mem_append_left _ (List.mem_map_of_mem hf))
        exact alike_mergeField (hmeet.mono h₁) (hf.mono h₁) hfs
      refine reports.bind hfields fun s₁ fields h₁ _ hfs => ?_
      have hold : ∀ t, merged.2 = some t → Nests s₁ j t := fun t ht => (hmerged.2 t ht).mono h₁
      have hnew : ∀ t, shape.stringIndex = some t → Nests s₁ j t := fun t ht =>
        (hparts t (by simp [Node.components, ht])).mono h₁
      have hindex := alike_mergeIndex (hmeet.mono h₁) hold hnew
      refine reports.bind hindex fun s₂ index h₂ _ hi => ?_
      exact reports.pure ⟨fun f hf => (hfs f hf).mono h₂, hi⟩

theorem alike_mergeObjects {objects : List TypeId} (hobjects : ∀ o ∈ objects, Nests s (k + 1) o) :
    reports.Hold s (mergeObjects meet site objects) (mergeObjects meet' site objects)
      (Nests · (k + 1)) := by
  have hfold : reports.Hold s (objects.foldlM (mergeObject meet site) ([], none))
      (objects.foldlM (mergeObject meet' site) ([], none)) (Merged k) := by
    refine reports.foldlM ⟨by simp, by simp⟩ fun o ho s₁ merged h₁ hm => ?_
    exact alike_mergeObject (hmeet.mono h₁) hm ((hobjects o ho).mono h₁)
  refine reports.bind hfold fun s₁ merged h₁ _ hm => ?_
  have hparts : ∀ c ∈ (Node.object ⟨merged.1.map (·.field), merged.2⟩).components, Nests s₁ k c := by
    intro c hc
    simp only [Node.components, List.map_map, List.mem_append, List.mem_map, Option.mem_toList] at hc
    rcases hc with ⟨f, hf, rfl⟩ | hc
    · exact hm.1 f hf
    · exact hm.2 c hc
  refine reports.bind (reports_of_reporting (reporting_lift (nests_object hparts)))
    fun s₂ t h₂ _ ht => ?_
  refine reports.bind (reports_of_reporting (reporting_copyOrigins merged.1)) fun s₃ _ h₃ _ _ => ?_
  exact reports.pure (ht.mono h₃)

end merge

section intersection

variable {s : Store} {n : Nat} {meet meet' : List TypeId → Reporting TypeId}
  {site : Option SourceTag} {ts : List TypeId}

theorem alike_meetParts (hmeet : ∀ k, n = k + 1 → MeetAlike k s meet meet')
    (hts : ∀ t ∈ ts, Nests s n t) :
    reports.Hold s (meetParts meet site ts) (meetParts meet' site ts) (Nests · n) := by
  refine reports_store fun hs => ?_
  cases hr : reducePrimitives s ts with
  | none => exact reports.pure (.of_fixed hs rfl)
  | some us =>
      have hus : ∀ t ∈ us, Nests s n t := fun t ht => hts t ((sublist_reducePrimitives hr).subset ht)
      dsimp only
      split
      · rename_i hmany
        -- two objects meet, so objects are nested
        obtain ⟨k, rfl⟩ : ∃ k, n = k + 1 := by
          obtain ⟨o, ho⟩ := List.exists_mem_of_length_pos (Nat.lt_of_succ_lt hmany)
          obtain ⟨ho, hobject⟩ := List.mem_filter.mp ho
          obtain ⟨shape, hn⟩ := node_of_isObject hobject
          obtain ⟨k, hk, _⟩ := (hus o ho).of_object hn
          exact ⟨k, hk⟩
        have hobjects : ∀ o ∈ us.filter s.isObject, Nests s (k + 1) o := fun o ho =>
          hus o (List.mem_filter.mp ho).1
        refine reports.bind (alike_mergeObjects (hmeet k rfl) hobjects) fun s₁ merged h₁ _ hm => ?_
        refine reports_of_reporting (reporting_lift (nests_rawIntersection ?_))
        exact List.forall_mem_cons.mpr ⟨hm, fun t ht => (hus t (List.mem_filter.mp ht).1).mono h₁⟩
      · exact reports_of_reporting (reporting_lift (nests_rawIntersection hus))

/-- What the members of an intersection become when nested intersections are taken apart. -/
theorem nests_leaves (hs : s.Formed) {nesting : Nat} (hts : ∀ t ∈ ts, Nests s n t)
    (hshallow : ∀ t ∈ ts, Shallow s nesting t) :
    ∀ l ∈ TypeId.sortUnique s.numbers (ts.flatMap s.intersectionLeaves),
      Nests s n l ∧ Shallow s nesting l ∧ (s.node l).intersectionMembers? = none := by
  intro l hl
  refine ⟨forall_mem_flatLeaves (fun u ms hu => hu.of_mem_intersection) hts l hl, ?_,
    flatLeaves_flat hs Node.intersectionMembers?_subset (fun t ht => (hts t ht).known) l hl⟩
  refine (forall_mem_flatLeaves (p := fun u => u.index < s.size ∧ Shallow s nesting u) ?_
    (fun t ht => ⟨(hts t ht).known, hshallow t ht⟩) l hl).2
  rintro u members ⟨hu, hshallow⟩ hn m hm
  have hlt := hs.descends u hu m (Node.intersectionMembers?_subset _ _ hn hm)
  have hu' := hshallow (.inr (by simp [hn]))
  exact ⟨by omega, fun _ => by omega⟩

/-- Distributing takes one member of each union, and the members are nested less deep. -/
theorem nests_choices (hs : s.Formed) {nesting : Nat} (hts : ∀ t ∈ ts, Nests s n t ∧
    Shallow s (nesting + 1) t ∧ (s.node t).intersectionMembers? = none) :
    ∀ ms ∈ choices (ts.filter fun t => (s.unionMembers? t).isNone) (ts.filterMap s.unionMembers?),
      ∀ m ∈ ms, Nests s n m ∧ Shallow s nesting m := by
  refine forall_mem_choices (p := fun m => Nests s n m ∧ Shallow s nesting m) ?_ ?_
  · intro m hm
    obtain ⟨hm, hunion⟩ := List.mem_filter.mp hm
    refine ⟨(hts m hm).1, fun hshallow => ?_⟩
    rw [(hts m hm).2.2] at hshallow
    unfold unionMembers? at hunion
    simp only [Option.isNone_iff_eq_none] at hunion
    simp [hunion] at hshallow
  · intro members hmembers m hm
    obtain ⟨t, ht, hn⟩ := List.mem_filterMap.mp hmembers
    have hlt := hs.descends t (hts t ht).1.known m (Node.unionMembers?_subset _ _ hn hm)
    have hshallow := (hts t ht).2.1 (.inl (Option.isSome_of_eq_some hn))
    exact ⟨(hts t ht).1.of_mem_union hn m hm, fun _ => by omega⟩

/-- What is done with the members of an intersection: `meet` merges objects, and `again` makes the
intersections that it is distributed into. -/
def meetOnce (meet again : List TypeId → Reporting TypeId) (site : Option SourceTag)
    (members : List TypeId) : Reporting TypeId := do
  let s ← getThe Store
  match absorbMeet (TypeId.sortUnique s.numbers (members.flatMap s.intersectionLeaves)) with
  | .inl t => return t
  | .inr flat =>
      let unions := flat.filterMap s.unionMembers?
      let others := flat.filter fun t => (s.unionMembers? t).isNone
      if unions.isEmpty || Limits.distributionSize < choiceCount unions then
        meetParts meet site flat
      else do
        let results ← (choices others unions).mapM again
        Build.union results

theorem alike_meetOnce {again again' : List TypeId → Reporting TypeId} {nesting : Nat}
    (hmeet : ∀ k, n = k + 1 → MeetAlike k s meet meet')
    (hagain : 0 < nesting → ∀ s₁, s.Extends s₁ → ∀ us,
      (∀ u ∈ us, Nests s₁ n u ∧ Shallow s₁ nesting u) →
        reports.Hold s₁ (again us) (again' us) (Nests · n))
    (hts : ∀ t ∈ ts, Nests s n t) (hshallow : ∀ t ∈ ts, Shallow s (nesting + 1) t) :
    reports.Hold s (meetOnce meet again site ts) (meetOnce meet' again' site ts) (Nests · n) := by
  refine reports_store fun hs => ?_
  have hleaves := nests_leaves hs hts hshallow
  generalize TypeId.sortUnique s.numbers (ts.flatMap s.intersectionLeaves) = flat at hleaves
  cases ha : absorbMeet flat with
  | inl t =>
      refine reports.pure ?_
      rcases absorbMeet_eq_inl ha with ht | ht
      · exact .of_fixed hs ht
      · exact (hleaves t ht).1
  | inr us =>
      have hus : ∀ t ∈ us, _ := fun t ht => hleaves t ((absorbMeet_eq_inr ha).1.subset ht)
      dsimp only
      split
      · exact alike_meetParts hmeet fun t ht => (hus t ht).1
      · rename_i hunions
        have hnesting : 0 < nesting := by
          simp only [Bool.or_eq_true, List.isEmpty_iff, not_or] at hunions
          obtain ⟨members, hmembers⟩ := List.exists_mem_of_ne_nil _ hunions.1
          obtain ⟨t, ht, hn⟩ := List.mem_filterMap.mp hmembers
          have hlt := (hus t ht).2.1 (.inl (Option.isSome_of_eq_some hn))
          omega
        have hchoices := nests_choices hs hus
        have hresults := reports.mapM (s := s) (P := (Nests · n)) (fun h hr => hr.mono h)
          fun ms hms s₁ h₁ => hagain hnesting s₁ h₁ ms fun m hm =>
            ⟨(hchoices ms hms m hm).1.mono h₁,
              (hchoices ms hms m hm).2.mono h₁ (hchoices ms hms m hm).1.known⟩
        refine reports.bind hresults fun s₁ results _ _ hr => ?_
        exact reports_of_reporting (reporting_lift (nests_union hr))

theorem Shallow.of_le {nesting nesting' : Nat} {t : TypeId} (h : Shallow s nesting t)
    (hle : nesting ≤ nesting') : Shallow s nesting' t :=
  fun ht => Nat.lt_of_lt_of_le (h ht) hle

/-- Beyond the nesting of unions the bound is of no matter. -/
theorem alike_intersectionAt (bound : Nat) {nesting nesting' : Nat}
    (hmeet : ∀ k, n = k + 1 → MeetAlike k s meet meet') (hpos : 0 < bound)
    (hbound : bound ≤ nesting) (hbound' : bound ≤ nesting') (hts : ∀ t ∈ ts, Nests s n t)
    (hshallow : ∀ t ∈ ts, Shallow s bound t) :
    reports.Hold s (intersectionAt meet site nesting ts) (intersectionAt meet' site nesting' ts)
      (Nests · n) := by
  induction bound generalizing nesting nesting' s ts with
  | zero => omega
  | succ bound ih =>
      obtain ⟨nesting, rfl⟩ : ∃ i, nesting = i + 1 := ⟨nesting - 1, by omega⟩
      obtain ⟨nesting', rfl⟩ : ∃ i, nesting' = i + 1 := ⟨nesting' - 1, by omega⟩
      refine alike_meetOnce hmeet (fun hpos s₁ h₁ us hus => ?_) hts hshallow
      exact ih (fun k hk => (hmeet k hk).mono h₁) hpos (by omega) (by omega)
        (fun u hu => (hus u hu).1) fun u hu => (hus u hu).2

/-- The intersection of members whose objects are nested at most `levels` deep, with a bound of its
own for the nesting of unions. -/
def intersectionBy (bound : List TypeId → Nat) (site : Option SourceTag) :
    Nat → List TypeId → Reporting TypeId
  | 0, _ => return .error
  | levels + 1, members =>
      intersectionAt (intersectionBy bound site levels) site (bound members) members

theorem intersectionIn_eq_intersectionBy (levels : Nat) :
    intersectionIn site levels = intersectionBy rank site levels := by
  induction levels with
  | zero => rfl
  | succ levels ih =>
      funext ts
      rw [intersectionIn, intersectionBy, ih]

/-- Beyond the nesting of objects and unions the bounds are of no matter. -/
theorem alike_intersectionBy {bound bound' : List TypeId → Nat} (hbound : ∀ ts, rank ts ≤ bound ts)
    (hbound' : ∀ ts, rank ts ≤ bound' ts) {levels levels' : Nat} (h : n < levels) (h' : n < levels')
    (hts : ∀ t ∈ ts, Nests s n t) :
    reports.Hold s (intersectionBy bound site levels ts) (intersectionBy bound' site levels' ts)
      (Nests · n) := by
  induction levels generalizing levels' n s ts with
  | zero => omega
  | succ levels ih =>
      obtain ⟨levels', rfl⟩ : ∃ i, levels' = i + 1 := ⟨levels' - 1, by omega⟩
      refine alike_intersectionAt (rank ts) ?_ (rank_pos ts) (hbound ts) (hbound' ts) hts
        fun t ht _ => lt_rank ht
      rintro k rfl s₁ _ us hus
      exact ih (by omega) (by omega) hus

theorem alike_intersectionIn {levels levels' : Nat} (h : n < levels) (h' : n < levels')
    (hts : ∀ t ∈ ts, Nests s n t) :
    reports.Hold s (intersectionIn site levels ts) (intersectionIn site levels' ts) (Nests · n) := by
  rw [intersectionIn_eq_intersectionBy, intersectionIn_eq_intersectionBy]
  exact alike_intersectionBy (fun _ => Nat.le_refl _) (fun _ => Nat.le_refl _) h h' hts

theorem nests_rank (hs : s.Formed) (hts : ∀ t ∈ ts, t.index < s.size) :
    ∀ t ∈ ts, Nests s (rank ts - 1) t := by
  intro t ht
  have hlt := lt_rank ht
  exact (Nests.of_known hs (hts t ht)).of_le (by omega)

/-- Larger bounds give the same intersection. -/
theorem intersectionBy_run {bound : List TypeId → Nat} (hbound : ∀ ts, rank ts ≤ bound ts)
    (hs : s.Formed) {levels : Nat} (hlevels : rank ts ≤ levels) (hts : ∀ t ∈ ts, t.index < s.size)
    (ds : Array Diagnostic) :
    intersectionBy bound site levels ts ds s = Reporting.intersection site ts ds s := by
  have hpos := rank_pos ts
  have halike : reports.Hold s (intersectionBy rank site (rank ts) ts)
      (intersectionBy bound site levels ts) (Nests · (rank ts - 1)) :=
    alike_intersectionBy (fun us => Nat.le_refl (rank us)) hbound (by omega) (by omega)
      (nests_rank hs hts)
  rw [Reporting.intersection, intersectionIn_eq_intersectionBy]
  exact (halike ds hs).1

/-- An intersection satisfies its recursive equation, which knows no bound. -/
theorem alike_intersection (hts : ∀ t ∈ ts, t.index < s.size) :
    reports.Hold s (Reporting.intersection site ts)
      (meetOnce (Reporting.intersection site) (Reporting.intersection site) site ts)
      (Nests · (rank ts - 1)) := by
  refine reports.formed fun hs => ?_
  have hnests := nests_rank hs hts
  have hshallow : ∀ t ∈ ts, Shallow s (rank ts) t := fun t ht _ => lt_rank ht
  have hpos := rank_pos ts
  obtain ⟨r, hr⟩ : ∃ r, rank ts = r + 1 := ⟨rank ts - 1, by omega⟩
  have hunfold : Reporting.intersection site ts =
      meetOnce (intersectionIn site r) (intersectionAt (intersectionIn site r) site r) site ts := by
    rw [Reporting.intersection, hr, intersectionIn, hr]
    rfl
  rw [hr, Nat.add_sub_cancel] at hnests ⊢
  rw [hr] at hshallow
  rw [hunfold]
  refine alike_meetOnce ?_ (fun hpos s₁ h₁ us hus => reports.formed fun hs₁ => ?_) hnests hshallow
  · rintro k rfl s₁ _ us hus
    refine reports.formed fun hs₁ => ?_
    have hrank := nests_rank hs₁ fun u hu => (hus u hu).known
    have hpos := rank_pos us
    exact reports.mono (alike_intersectionIn (by omega) (by omega) fun u hu =>
      (hus u hu).min (hrank u hu)) fun _ _ h => h.of_le (Nat.min_le_left _ _)
  · have hrank := nests_rank hs₁ fun u hu => (hus u hu).1.known
    have hpos' := rank_pos us
    obtain ⟨l, hl⟩ : ∃ l, rank us = l + 1 := ⟨rank us - 1, by omega⟩
    rw [Reporting.intersection, hl, intersectionIn]
    rw [hl, Nat.add_sub_cancel] at hrank
    refine reports.mono (alike_intersectionAt (n := min r l) (min r (rank us)) ?_
      (by omega) (by omega) (by omega) (fun u hu => (hus u hu).1.min (hrank u hu)) fun u hu hu' => ?_)
      fun _ _ h => h.of_le (Nat.min_le_left _ _)
    · intro k hk s₂ _ vs hvs
      exact alike_intersectionIn (by omega) (by omega) hvs
    · have hlt := lt_rank hu
      have hlt' := (hus u hu).2 hu'
      omega

end intersection

end Normal

end TypeResolution
