import TypeResolution.Proofs.Narrowing.Joining

/-!
Narrowing gives normal types. What is kept of the members of a normal type, what they are cut down
to and what they are compared with is normal, and uniting and intersecting normal types gives one.
Where a member is cut down to a kind, though, it is put into an intersection as it is, so it must not
be `never`, the error type or an intersection itself. The field of a discriminant is evaluated; this
is followed for fields in which nothing has to be resolved.
-/

namespace TypeResolution

open Store Replay

namespace Narrowing

/-- Conditions by which narrowing a normal type gives one. -/
def StaysNormal (setting : Setting) (s : Store) (r : TypeId) : TypeGuard → Prop
  | .nullishEquality | .truthy | .inProperty _ => True
  | .typeof _ => r ≠ .never ∧ r ≠ .error ∧
      ∀ m ∈ s.unionMembers r, (s.node m).intersectionMembers? = none
  | .literalEquality value => Settled s value
  | .discriminant _ value => value.index < s.size ∧ s.Concrete r ∧ setting.options.Positive
  | .predicate value => value.index < s.size ∧ ∀ ds,
      let run := resolve setting value ds s
      Settled run.2 run.1.1

section members

variable {s s' : Store} {r m : TypeId} {branch : Branch}

theorem settled_of_mem_unionMembers (hr : Settled s r) (hm : m ∈ s.unionMembers r) :
    Settled s m := by
  unfold unionMembers at hm
  cases hn : (s.node r).unionMembers? with
  | none =>
      rw [hn] at hm
      exact List.mem_singleton.mp hm ▸ hr
  | some ms =>
      rw [hn] at hm
      exact kept_settled.of_mem_union hr hn m hm

theorem inUnionForm_of_settled (hr : Settled s r) : InUnionForm s r := by
  intro ms hn
  rw [← hn]
  exact hr.inForm

theorem settled_intern_literal (v : Literal) :
    building.Holds s (Build.intern (.literal v)) Settled := by
  refine building.mono (building_node (by simp [Node.components]) (by simp)) ?_
  rintro s' u _ _ ⟨hu, hn⟩
  exact .of_leaf hu (by rw [hn]; rfl)

/-- Treating the members one by one gives normal types, which are united. -/
theorem settled_judged {judge : TypeId → Match} {step : TypeId × Match → Build TypeId}
    (hstep : ∀ m ∈ s.unionMembers r, ∀ s₁, s.Extends s₁ → s₁.Formed →
      building.Holds s₁ (step (m, judge m)) Settled) :
    building.Holds s
      (do
        let narrowed ← (((s.unionMembers r).map fun m => (m, judge m)).filter
          (·.2.keeps branch)).mapM step
        Build.union narrowed : Build TypeId) Settled :=
  building_sift (R := fun s' _ u => Settled s' u) (fun hext h => h.mono hext)
    (fun _ hm _ s₁ h₁ hs₁ => hstep _ hm s₁ h₁ hs₁) fun _ _ _ hus =>
      kept_settled.union (forall_right_of_forall₂ hus fun _ _ h => h)

theorem settled_filtered (hr : Settled s r) (p : TypeId → Bool) :
    building.Holds s (Build.union ((s.unionMembers r).filter p)) Settled :=
  kept_settled.union fun _ hm => settled_of_mem_unionMembers hr (List.mem_filter.mp hm).1

theorem settled_byNullish (hr : Settled s r) : building.Holds s (byNullish branch r) Settled := by
  unfold byNullish
  split
  · cases branch with
    | whenTrue =>
        refine building.formed fun hs => kept_settled.union fun t ht => .of_fixed hs ?_
        revert t
        decide
    | whenFalse => exact building.pure hr
  · exact building_get (settled_filtered hr _)

theorem settled_byPresence (hr : Settled s r) (name : String) :
    building.Holds s (byPresence name branch r) Settled := by
  unfold byPresence
  split
  · exact building.pure hr
  · exact building_get (settled_filtered hr _)

theorem settled_cutToTruth (hm : Settled s m) :
    building.Holds s (cutToTruth branch m) Settled := by
  refine building.formed fun hs => ?_
  unfold cutToTruth
  split
  · split
    · exact building.pure (.of_fixed hs rfl)
    · exact building.pure hm
  split
  · exact settled_intern_literal _
  split
  · exact settled_intern_literal _
  split
  · exact building.pure (.of_fixed hs rfl)
  · exact building.pure hm

theorem settled_byTruth (hr : Settled s r) : building.Holds s (byTruth branch r) Settled := by
  refine building_get (settled_judged fun m hm s₁ h₁ _ => ?_)
  have hm₁ := (settled_of_mem_unionMembers hr hm).mono h₁
  dsimp only
  split
  · exact settled_cutToTruth hm₁
  · exact building.pure hm₁

/-- Nothing is to be rewritten where a type of no certain kind meets a primitive. -/
theorem meetForm_pair {i : Intrinsic} {ms : List TypeId} (hs : s.Formed)
    (hhides : (s.node m).hidesKind) (hmeet : (s.node m).intersectionMembers? = none)
    (hplain : i.typeId ≠ .never ∧ i.typeId ≠ .any ∧ i.typeId ≠ .unknown)
    (hms : ∀ u ∈ ms, u = m ∨ u = i.typeId) : Normal.MeetForm s ms := by
  have hnode : s.node i.typeId = .intrinsic i := hs.node_intrinsic i
  have hclass : Normal.primitiveClass? s m = none := by
    unfold Normal.primitiveClass?
    cases hn : s.node m <;> simp_all [Node.hidesKind]
  have hall : ∀ u ∈ ms, (s.node u).intersectionMembers? = none ∧ s.unionMembers? u = none ∧
      s.isObjectLike u = false ∧ s.literal? u = none := by
    intro u hu
    unfold unionMembers? isObjectLike literal?
    rcases hms u hu with rfl | rfl
    · cases hn : s.node u <;> simp_all [Node.hidesKind, Node.unionMembers?]
    · rw [hnode]
      simp [Node.intersectionMembers?, Node.unionMembers?]
  have hobject : ∀ u ∈ ms, s.isObject u = false := fun u hu => by
    by_contra h
    have hlike := isObjectLike_of_isObject (by simpa using h)
    simp [(hall u hu).2.2.1] at hlike
  refine ⟨fun u hu => (hall u hu).1, fun u hu => ?_, ?_, ?_, fun u hu _ _ h => ?_⟩
  · rcases hms u hu with rfl | rfl
    · have hapart : ∀ n, s.node u = n → n.hidesKind = false → False := by
        rintro _ rfl h
        simp [h] at hhides
      refine ⟨?_, ?_, ?_, ?_⟩ <;> rintro rfl
      · exact hapart _ (hs.node_fixed (i := 0) (by decide)) rfl
      · exact hapart _ (hs.node_intrinsic .never) rfl
      · exact hapart _ (hs.node_intrinsic .any) rfl
      · exact hapart _ (hs.node_intrinsic .unknown) rfl
    · exact ⟨by cases i <;> decide, hplain⟩
  · have hnone : ms.filterMap s.unionMembers? = [] :=
      List.filterMap_eq_nil_iff.mpr fun u hu => (hall u hu).2.1
    simp [Normal.crowded, hnone]
  · have hone : ∀ u ∈ ms, ∀ c, Normal.primitiveClass? s u = some c → u = i.typeId := by
      intro u hu c hc
      rcases hms u hu with rfl | h
      · simp [hclass] at hc
      · exact h
    refine ⟨fun u hu v hv c d hc hd => ?_, fun _ _ _ _ _ v hv => (hall v hv).2.2.1,
      fun _ _ _ _ v hv => ?_, fun u hu _ _ h => ?_, fun u hu v h => ?_⟩
    · obtain rfl := hone u hu c hc
      obtain rfl := hone v hv d hd
      exact Option.some.inj (hc.symm.trans hd)
    · by_contra h
      have h := isObject_of_isEmptyObject (by simpa using h)
      simp [hobject v hv] at h
    · simp [(hall u hu).2.2.2] at h
    · simp [(hall u hu).2.2.2] at h
  · simp [hobject u hu] at h

theorem settled_cutToKind {kind : TypeofKind} (hm : Settled s m) (hhides : (s.node m).hidesKind)
    (hmeet : (s.node m).intersectionMembers? = none) :
    building.Holds s (cutToKind kind m) Settled := by
  unfold cutToKind
  cases hp : kind.primitive? with
  | none => exact building.pure hm
  | some p =>
      obtain ⟨i, rfl, hplain⟩ : ∃ i : Intrinsic, p = i.typeId ∧
          i.typeId ≠ .never ∧ i.typeId ≠ .any ∧ i.typeId ≠ .unknown := by
        cases kind <;> cases hp
        · exact ⟨.string, rfl, by decide⟩
        · exact ⟨.number, rfl, by decide⟩
        · exact ⟨.boolean, rfl, by decide⟩
        · exact ⟨.undefined, rfl, by decide⟩
      refine building.formed fun hs => kept_settled.rawIntersection (fun u hu => ?_) ?_
      · rcases List.mem_pair.mp hu with rfl | rfl
        · exact hm
        · exact .of_fixed hs (by cases i <;> rfl)
      · exact meetForm_pair hs hhides hmeet hplain fun u hu =>
          List.mem_pair.mp (TypeId.mem_sortUnique.mp hu)

theorem settled_ofKind {kind : TypeofKind} (hm : Settled s m) :
    building.Holds s (ofKind kind m) Settled := by
  refine building.formed fun hs => ?_
  unfold ofKind
  cases hp : kind.primitive? with
  | some p => exact building.pure (.of_fixed hs (by cases kind <;> cases hp <;> rfl))
  | none =>
      dsimp only
      split
      · refine building.bind (kept_settled.makes_object (o := ⟨[], none⟩)
          (by simp [Node.components])) fun s₁ u _ hs₁ hu => kept_settled.union fun t ht => ?_
        rcases List.mem_pair.mp ht with rfl | rfl
        · exact hu.1
        · exact .of_fixed hs₁ rfl
      · exact building.pure hm

theorem settled_byTypeof {kind : TypeofKind} (hr : Settled s r)
    (hguard : r ≠ .never ∧ r ≠ .error ∧
      ∀ m ∈ s.unionMembers r, (s.node m).intersectionMembers? = none) :
    building.Holds s (byTypeof kind branch r) Settled := by
  refine building.formed fun hs => ?_
  obtain ⟨hnever, herror, hmeet⟩ := hguard
  have hform := inUnionForm_of_settled hr
  unfold byTypeof
  split
  · split
    · exact settled_ofKind hr
    · exact building.pure hr
  rename_i htop
  refine building_get (settled_judged fun m hm s₁ h₁ _ => ?_)
  have hm' := settled_of_mem_unionMembers hr hm
  have hleaf : m ∈ s.unionLeaves r := hform.isFlat.mem_unionLeaves ▸ hm
  have halone : m = .error ∨ m = .any ∨ m = .unknown ∨ m = .never → r = m :=
    hform.eq_of_mem_leaves hleaf
  dsimp only
  split
  · rename_i hcut
    have hfound : typeofMatch s kind m = .sometimes := by
      simpa using (Bool.and_eq_true_iff.mp hcut).2
    have hhides : (s.node m).hidesKind := by
      by_contra hhides
      have htops :=
        eq_top_of_sometimes hs hm'.known hfound (hform.isFlat m hm) (by simpa using hhides)
      have hrm := halone htops
      subst hrm
      rcases htops with rfl | rfl | rfl | rfl
      · exact herror rfl
      · exact htop rfl
      · exact htop rfl
      · exact hnever rfl
    have hnode := h₁.node_eq m hm'.known
    exact settled_cutToKind (hm'.mono h₁) (hnode ▸ hhides) (hnode ▸ hmeet m hm)
  · exact building.pure (hm'.mono h₁)

end members

section checks

variable {setting : Setting} {s : Store} {r m c : TypeId} {branch : Branch}
  (henv : setting.environment.Agrees AnyName s setting.environment)

include henv

theorem reporting_isAssignable_known (hm : s.Closed AnyName m) (hc : s.Closed AnyName c) :
    reporting.Holds s (isAssignable setting m c) fun _ _ => True :=
  reporting.mono (reporting_follows (follows_narrowingIsAssignable (L := .free AnyName)
    (.of_agrees henv) hm hc))
    fun _ _ _ _ _ => trivial

theorem settled_byLiteral (hr : Settled s r) (hc : Settled s c) :
    reporting.Holds s (byLiteral setting c branch r) Settled := by
  refine reporting.formed fun hs => ?_
  have hmember : ∀ m ∈ s.unionMembers r, Settled s m := fun m hm =>
    settled_of_mem_unionMembers hr hm
  unfold byLiteral
  split
  · refine reporting.pure ?_
    split
    · exact hc
    · exact hr
  refine reporting_store fun _ => ?_
  split
  · have hfilter : reporting.Holds s ((s.unionMembers r).filterM fun m => do
        if m = c then return true else isAssignable setting c m) fun _ _ => True := by
      refine reporting.mono (reporting_filterM (Q := fun _ _ _ => True) (fun _ h => h)
        fun m hm s₁ h₁ => ?_) fun _ _ _ _ _ => trivial
      split
      · exact reporting.pure trivial
      · exact reporting_isAssignable_known (henv.mono h₁) (h₁.closed (hs.closed_of_known hc.known))
          (h₁.closed (hs.closed_of_known (hmember m hm).known))
    refine reporting.bind hfilter fun s₁ kept h₁ _ _ => reporting_lift (kept_settled.union ?_)
    intro u hu
    obtain ⟨_, _, rfl⟩ := List.mem_map.mp hu
    exact hc.mono h₁
  · refine reporting_lift (kept_settled.union fun u hu => ?_)
    obtain ⟨m, hm, hu⟩ := List.mem_filterMap.mp hu
    unfold unlike at hu
    split_ifs at hu <;> cases hu
    · exact .of_fixed hs rfl
    · exact .of_fixed hs rfl
    · exact hmember _ hm

omit henv in
theorem settled_buildIntersection {ts : List TypeId} (hts : ∀ t ∈ ts, Settled s t) :
    building.Holds s (Build.intersection ts) Settled :=
  building.bind (kept_settled.intersection hts #[]) fun _ _ _ _ h => building.pure h

omit henv in
theorem reporting_mayOverlap_known (hm : s.Closed AnyName m) (hc : s.Closed AnyName c) :
    reporting.Holds s (mayOverlap m c : Build Bool) fun _ _ => True :=
  reporting_lift (building.mono (building_follows (follows_mayOverlap (L := .free AnyName) hm hc))
    fun _ _ _ _ _ => trivial)

/-- What is left of a member where a predicate holds. -/
theorem settled_asserted (hc : Settled s c) (hm : Settled s m) :
    reporting.Holds s (asserted setting c m) fun s' kept => ∀ u, kept = some u → Settled s' u := by
  refine reporting.formed fun hs => ?_
  have hmc : s.Closed AnyName m := hs.closed_of_known hm.known
  have hcc : s.Closed AnyName c := hs.closed_of_known hc.known
  unfold asserted
  refine reporting.bind (reporting_isAssignable_known henv hmc hcc) fun s₁ _ h₁ _ _ => ?_
  split
  · refine reporting.pure ?_
    rintro _ ⟨⟩
    exact hm.mono h₁
  refine reporting.bind
    (reporting_isAssignable_known (henv.mono h₁) (h₁.closed hcc) (h₁.closed hmc))
    fun s₂ _ h₂ _ _ => ?_
  have h := h₁.trans h₂
  split
  · refine reporting.pure ?_
    rintro _ ⟨⟩
    exact hc.mono h
  refine reporting.bind (reporting_mayOverlap_known (h.closed hmc) (h.closed hcc))
    fun s₃ _ h₃ _ _ => ?_
  split
  · have hts : ∀ t ∈ [m, c], Settled s₃ t := by
      simp [hm.mono (h.trans h₃), hc.mono (h.trans h₃)]
    refine reporting.bind (reporting_lift (settled_buildIntersection hts)) fun s₄ u _ _ hu => ?_
    refine reporting.pure ?_
    rintro _ ⟨⟩
    exact hu
  · exact reporting.pure nofun

/-- The members of which a predicate does not hold are some of the members. -/
theorem reporting_excluded {ms : List TypeId} (hc : s.Closed AnyName c)
    (hms : ∀ m ∈ ms, s.Closed AnyName m) :
    reporting.Holds s (excluded setting c ms) fun _ kept => ∀ us, kept = some us → us ⊆ ms := by
  induction ms generalizing s with
  | nil =>
      refine reporting.pure ?_
      rintro _ ⟨⟩
      exact List.Subset.refl _
  | cons m rest ih =>
      obtain ⟨hm, hrest⟩ := List.forall_mem_cons.mp hms
      have hlater : ∀ {s'}, s.Extends s' → reporting.Holds s' (excluded setting c rest)
          fun _ kept => ∀ us, kept = some us → us ⊆ rest := fun h =>
        ih (henv.mono h) (h.closed hc) fun u hu => h.closed (hrest u hu)
      unfold excluded
      refine reporting.bind (reporting_isAssignable_known henv hm hc) fun s₁ _ h₁ _ _ => ?_
      split
      · exact reporting.mono (hlater h₁) fun _ _ _ _ h us hus =>
          List.subset_cons_of_subset m (h us hus)
      refine reporting.bind (reporting_mayOverlap_known (h₁.closed hm) (h₁.closed hc))
        fun s₂ _ h₂ _ _ => ?_
      split
      · exact reporting.pure nofun
      refine reporting.bind (hlater (h₁.trans h₂)) fun s₃ kept _ _ hkept => reporting.pure ?_
      rintro _ hus
      obtain ⟨us, hkeptus, rfl⟩ := Option.map_eq_some_iff.mp hus
      exact List.cons_subset_cons m (hkept us hkeptus)

theorem settled_byPredicate (hr : Settled s r) (hc : Settled s c) :
    reporting.Holds s (byPredicate setting c branch r) Settled := by
  refine reporting.formed fun hs => ?_
  have hmember : ∀ m ∈ s.unionMembers r, Settled s m := fun m hm =>
    settled_of_mem_unionMembers hr hm
  unfold byPredicate
  split
  · refine reporting.pure ?_
    split
    · exact hc
    · exact hr
  refine reporting_store fun _ => ?_
  split
  · refine reporting.bind (reporting.mapM
      (P := fun s' (_ : TypeId) (kept : Option TypeId) => ∀ u, kept = some u → Settled s' u)
      (fun hext h u hu => (h u hu).mono hext) fun m hm s₁ h₁ _ =>
        settled_asserted (henv.mono h₁) (hc.mono h₁) ((hmember m hm).mono h₁))
      fun s₁ kept _ _ hkept => reporting_lift (kept_settled.union fun u hu => ?_)
    obtain ⟨o, ho, hou⟩ := List.mem_filterMap.mp hu
    exact forall_right_of_forall₂ hkept (fun _ _ h => h) o ho u hou
  · have hclosed : ∀ m ∈ s.unionMembers r, s.Closed AnyName m := fun m hm =>
      hs.closed_of_known (hmember m hm).known
    refine reporting.bind (reporting_excluded henv (hs.closed_of_known hc.known) hclosed)
      fun s₁ kept h₁ _ hkept => ?_
    cases kept with
    | some us =>
        exact reporting_lift (kept_settled.union fun u hu => (hmember u (hkept us rfl hu)).mono h₁)
    | none =>
        refine reporting_store fun _ => ?_
        refine reporting.bind (reporting_report _) ?_
        rintro s₂ _ _ _ rfl
        exact reporting.pure (hr.mono h₁)

section discriminants

variable (ho : setting.options.Positive)

include ho

omit henv in
/-- A normal type in which nothing has to be resolved is evaluated to a normal one. -/
theorem reporting_resolve_settled (hm : Settled s m) (hconcrete : s.Concrete m) :
    reporting.Holds s (resolve setting m) Settled := by
  have hrewriting :
      Rewriting (fun _ s t => s.Concrete t ∧ Settled s t) (fun s _ r => Settled s r) :=
    rewriting_settled_of (fun h ht => ⟨ht.1.mono h, ht.2.mono h⟩) (fun ht => ht.2.known)
      (fun ht hn hc => ⟨ht.1.component hc, ht.2.component hn hc⟩) fun ht => ht.2
  exact reporting_resolve_rebuilds hrewriting (fun ht => ht.1.isMeta)
    (fun _ h₁ => hrewriting.rebuilds ⟨hconcrete.mono h₁, hm.mono h₁⟩) ho ⟨hconcrete, hm⟩

/-- What is left of a member under a condition on one of its fields. -/
theorem settled_discriminate {property : String} (hm : Settled s m) (hconcrete : s.Concrete m)
    (hc : s.Closed AnyName c) :
    reporting.Holds s (discriminate setting property c branch m) fun s' kept =>
      ∀ u, kept = some u → Settled s' u := by
  have hwhole : ∀ {s₁}, s.Extends s₁ → ∀ u, some m = some u → Settled s₁ u := by
    rintro s₁ h₁ _ ⟨⟩
    exact hm.mono h₁
  have hundeclared : reporting.Holds s (pure (if branch.isTrue then none else some m))
      fun s' kept => ∀ u, kept = some u → Settled s' u := by
    refine reporting.pure ?_
    split
    · exact nofun
    · exact hwhole (.refl s)
  refine reporting_store fun _ => ?_
  cases hn : s.node m with
  | object o =>
      rw [show s.objectShape? m = some o by rw [objectShape?, hn]]
      simp only [Option.bind_some]
      cases hfind : o.find? property with
      | none => exact hundeclared
      | some f =>
          have hf : f.type ∈ (Node.object o).components :=
            List.mem_append_left _ (List.mem_map_of_mem (List.mem_of_find?_eq_some hfind))
          have hparts := kept_settled.of_mem_object hm hn
          refine reporting.bind (reporting_resolve_settled ho (hparts _ hf)
            (hconcrete.of_components hn _ hf)) fun s₁ field h₁ hs₁ hfield => ?_
          refine reporting_store fun _ => ?_
          have hmembers : ∀ k ∈ s₁.unionMembers field, Settled s₁ k := fun k hk =>
            settled_of_mem_unionMembers hfield hk
          refine reporting.bind (reporting_filterM (Q := fun _ _ _ => True) (fun _ h => h)
            fun k hk s₂ h₂ => ?_) fun s₂ fitting h₂ _ hfitting => ?_
          · have hagrees : Follows (.free AnyName) s₂ (agrees setting c branch k)
                (agrees setting c branch k) :=
              follows_agrees (.of_agrees (henv.mono (h₁.trans h₂))) ((h₁.trans h₂).closed hc)
                (h₂.closed (hs₁.closed_of_known (hmembers k hk).known))
            exact reporting.mono (reporting_follows hagrees) fun _ _ _ _ _ => trivial
          split
          · exact reporting.pure nofun
          split
          · exact reporting.pure (hwhole (h₁.trans h₂))
          refine reporting.bind (reporting_lift (kept_settled.union fun k hk =>
            (hmembers k (hfitting.1 k hk)).mono h₂)) fun s₃ narrowed h₃ _ hnarrowed => ?_
          have hkept : ∀ d ∈ (Node.object o).components, Settled s₃ d := fun d hd =>
            (hparts d hd).mono ((h₁.trans h₂).trans h₃)
          refine reporting.bind (reporting_lift
            (kept_settled.makes_object (forall_components_replaced hkept hnarrowed)))
            fun s₄ u _ _ hu => reporting.pure ?_
          rintro _ ⟨⟩
          exact hu.1
  | _ =>
      rw [show s.objectShape? m = none by rw [objectShape?, hn]]
      exact hundeclared

theorem settled_byDiscriminant {property : String} (hr : Settled s r) (hconcrete : s.Concrete r)
    (hc : s.Closed AnyName c) :
    reporting.Holds s (byDiscriminant setting property c branch r) Settled := by
  have hmember : ∀ m ∈ s.unionMembers r, Settled s m ∧ s.Concrete m := fun m hm =>
    ⟨settled_of_mem_unionMembers hr hm, hconcrete.of_mem_unionLeaves
      ((inUnionForm_of_settled hr).isFlat.mem_unionLeaves ▸ hm)⟩
  refine reporting_store fun _ => ?_
  refine reporting.bind (reporting.mapM
    (P := fun s' (_ : TypeId) (kept : Option TypeId) => ∀ u, kept = some u → Settled s' u)
    (fun hext h u hu => (h u hu).mono hext) fun m hm s₁ h₁ _ =>
      settled_discriminate (henv.mono h₁) ho ((hmember m hm).1.mono h₁) ((hmember m hm).2.mono h₁)
        (h₁.closed hc))
    fun s₁ kept _ _ hkept => reporting_lift (kept_settled.union fun u hu => ?_)
  obtain ⟨o, ho, hou⟩ := List.mem_filterMap.mp hu
  exact forall_right_of_forall₂ hkept (fun _ _ h => h) o ho u hou

end discriminants

end checks

section runs

variable {setting : Setting} {s s₁ : Store} {t r : TypeId} {e : Evaluator} {guard : TypeGuard}
  {branch : Branch}

/-- Narrowing a type that evaluates to a normal one gives a normal type. -/
theorem settled_narrow (henv : setting.environment.Agrees AnyName s setting.environment)
    (ht : s.Closed AnyName t)
    (heval : Eval.evaluate setting t (.fresh setting.options 0 none) s = ((.ok r, e), s₁))
    (hr : Settled s₁ r) (hguard : StaysNormal setting s₁ r guard) :
    reporting.Holds s (narrow setting t guard branch) Settled := by
  refine reporting.bind (reporting_resolve_evaluated henv ht heval) ?_
  rintro s₂ u h₂ hs₂ ⟨rfl, rfl, -⟩
  have henv := henv.mono h₂
  cases guard with
  | typeof kind => exact reporting_lift (settled_byTypeof hr hguard)
  | nullishEquality => exact reporting_lift (settled_byNullish hr)
  | truthy => exact reporting_lift (settled_byTruth hr)
  | inProperty name => exact reporting_lift (settled_byPresence hr name)
  | literalEquality value => exact settled_byLiteral henv hr hguard
  | discriminant property value =>
      exact settled_byDiscriminant henv hguard.2.2 hr hguard.2.1 (hs₂.closed_of_known hguard.1)
  | predicate value =>
      have hresolve : reporting.Holds s₁ (resolve setting value) Settled := by
        intro ds hs
        have hknown : s₁.Closed AnyName value := hs.closed_of_known hguard.1
        have hfollows : Follows (.free AnyName) s₁ (resolve setting value)
            (resolve setting value) := follows_narrowingResolve (.of_agrees henv) hknown
        obtain ⟨hgrows, hformed, -⟩ := reporting_follows hfollows ds hs
        exact ⟨hgrows, hformed, hguard.2 ds⟩
      exact reporting.bind hresolve fun s₃ c h₃ _ hc =>
        settled_byPredicate (henv.mono h₃) (hr.mono h₃) hc

end runs

end Narrowing

/-- Normalizing a narrowed type gives it back and reports nothing. -/
theorem normalize_narrow {setting : Setting} {s s₁ : Store} {t r : TypeId} {e : Evaluator}
    {guard : TypeGuard} (hs : s.Formed)
    (henv : setting.environment.Agrees AnyName s setting.environment) (ht : t.index < s.size)
    (heval : Eval.evaluate setting t (.fresh setting.options 0 none) s = ((.ok r, e), s₁))
    (hr : Settled s₁ r) (hguard : Narrowing.StaysNormal setting s₁ r guard) (branch : Branch)
    (site : Option SourceTag) (ds ds' : Array Diagnostic) :
    let run := Narrowing.narrow setting t guard branch ds s
    Reporting.normalize site run.1.1 ds' run.2 = ((run.1.1, ds'), run.2) := by
  intro run
  obtain ⟨-, hformed, hsettled⟩ : s.Extends run.2 ∧ run.2.Formed ∧ Settled run.2 run.1.1 :=
    Narrowing.settled_narrow henv (hs.closed_of_known ht) heval hr hguard ds hs
  exact normalize_of_settled hformed hsettled site ds'

end TypeResolution
