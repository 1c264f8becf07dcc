import TypeResolution.Proofs.Narrowing.Discriminant
import TypeResolution.Proofs.Narrowing.Units
import TypeResolution.Proofs.Tidy.Evaluation

/-!
Discriminants tell the members of a union apart. The variants of a discriminant that is found are
the members with their literals, which differ. So of all members just the one with a literal is left
where the field is compared with that literal, and just the others are left where it is not.
-/

namespace TypeResolution

open Store Replay

namespace Narrowing

variable {s s' : Store} {setting : Setting} {m r t : TypeId}

/-- The literal is the type of the field in the member. -/
structure IsVariant (s : Store) (property : String) (v : TypeId × TypeId) : Prop where
  unit : isUnit s v.1
  field : ∃ o f, s.node v.2 = .object o ∧ o.find? property = some f ∧ f.type = v.1

theorem IsVariant.known {property : String} {v : TypeId × TypeId} (h : IsVariant s property v) :
    v.2.index < s.size := by
  obtain ⟨o, f, hn, -⟩ := h.field
  exact known_of_node hn (by simp)

theorem IsVariant.mono {property : String} {v : TypeId × TypeId} (h : IsVariant s property v)
    (hs : s.Formed) (hext : s.Extends s') : IsVariant s' property v := by
  obtain ⟨o, f, hn, hf⟩ := h.field
  exact ⟨isUnit_mono hs hext h.unit, o, f, (hext.node_eq _ h.known).trans hn, hf⟩

/-- Each of the members has a variant, and the literals differ. -/
structure Splits (s : Store) (members : List TypeId) (d : Discriminant) : Prop where
  members : d.variants.map (·.2) = members
  literals : (d.variants.map (·.1)).Nodup
  variants : ∀ v ∈ d.variants, IsVariant s d.property v

theorem variantsOf_eq {property : String} {shapes : List (TypeId × ObjectShape)}
    {done variants : List (TypeId × TypeId)}
    (h : variantsOf s property shapes done = some variants)
    (hshapes : ∀ p ∈ shapes, s.node p.1 = .object p.2) (hliterals : (done.map (·.1)).Nodup)
    (hdone : ∀ v ∈ done, IsVariant s property v) :
    variants.map (·.2) = done.map (·.2) ++ shapes.map (·.1) ∧ (variants.map (·.1)).Nodup ∧
      ∀ v ∈ variants, IsVariant s property v := by
  induction shapes generalizing done with
  | nil =>
      cases h
      exact ⟨by simp, hliterals, hdone⟩
  | cons p rest ih =>
      obtain ⟨hp, hrest⟩ := List.forall_mem_cons.mp hshapes
      unfold variantsOf at h
      cases hf : p.2.find? property with
      | none => simp [hf] at h
      | some f =>
          rw [hf] at h
          dsimp only at h
          split at h
          · rename_i hnew
            simp only [Bool.and_eq_true, Bool.not_eq_true', List.any_eq_false,
              decide_eq_true_eq] at hnew
            have hliterals' : ((done ++ [(f.type, p.1)]).map (·.1)).Nodup := by
              simp only [List.map_append, List.map_cons, List.map_nil]
              refine List.nodup_append.mpr ⟨hliterals, List.nodup_singleton _, ?_⟩
              rintro _ ha _ hb rfl
              obtain ⟨v, hv, heq⟩ := List.mem_map.mp ha
              exact hnew.2 v hv (heq.trans (List.mem_singleton.mp hb))
            have hdone' : ∀ v ∈ done ++ [(f.type, p.1)], IsVariant s property v := by
              intro v hv
              rcases List.mem_append.mp hv with hv | hv
              · exact hdone v hv
              · rw [List.mem_singleton.mp hv]
                exact ⟨hnew.1, p.2, f, hp, hf, rfl⟩
            obtain ⟨hmembers, hvariants⟩ := ih h hrest hliterals' hdone'
            exact ⟨by simpa using hmembers, hvariants⟩
          · cases h

theorem shapes_of_mapM {members : List TypeId} {shapes : List (TypeId × ObjectShape)}
    (h : (members.mapM fun m => (s.objectShape? m).map (m, ·)) = some shapes) :
    shapes.map (·.1) = members ∧ ∀ p ∈ shapes, s.node p.1 = .object p.2 := by
  induction members generalizing shapes with
  | nil =>
      cases h
      exact ⟨rfl, by simp⟩
  | cons m rest ih =>
      simp only [List.mapM_cons, bind, Option.bind_eq_some_iff, Option.map_eq_some_iff, pure,
        Option.some.injEq] at h
      obtain ⟨p, ⟨o, ho, rfl⟩, tail, htail, rfl⟩ := h
      obtain ⟨hmembers, hnodes⟩ := ih htail
      have hn : s.node m = .object o := by
        unfold objectShape? at ho
        split at ho
        · rename_i hn
          rw [hn, Option.some.inj ho]
        · cases ho
      exact ⟨by simp [hmembers], List.forall_mem_cons.mpr ⟨hn, hnodes⟩⟩

theorem filterMap_of_forall₂ {p : TypeId × TypeId → Bool} {vs : List (TypeId × TypeId)}
    {kept : List (Option TypeId)}
    (h : List.Forall₂ (fun v k => k = if p v then some v.2 else none) vs kept) :
    kept.filterMap id = (vs.filter p).map (·.2) := by
  induction h with
  | nil => rfl
  | @cons v _ _ _ hk _ ih =>
      subst hk
      cases hv : p v with
      | true => simpa [hv] using ih
      | false => simpa [hv] using ih

/-- Types that have been united are united to the same type again. -/
theorem union_later {ts : List TypeId} (hts : ∀ u ∈ ts, u.index < s.size) (hs : s.Formed)
    (hext : (Build.union ts s).2.Extends s') (hs' : s'.Formed) :
    Build.union ts s' = ((Build.union ts s).1, s') := by
  obtain ⟨hgrows, hformed, hknown, hforth, hback⟩ := building_absorbs hts hs
  obtain ⟨-, -, hform⟩ := building_inUnionForm hts hs
  have hform' := (InUnionForm.iff_of_extends hext (hformed.closed_of_known hknown)).mpr hform
  have hleaves : ts.flatMap s'.unionLeaves = ts.flatMap s.unionLeaves :=
    List.flatMap_congr fun u hu => unionLeaves_eq (hgrows.trans hext) hs (hts u hu)
  have hunited := unionLeaves_eq hext hformed hknown
  refine union_eq_of_absorbs hs' (Nat.lt_of_lt_of_le hknown hext.size_le) hform' ?_ ?_ ?_
  · exact fun u hu => Nat.lt_of_lt_of_le (hts u hu) (hgrows.trans hext).size_le
  · rw [hleaves, hunited]
    exact fun l hl => (hforth l hl).mono hext
  · rw [hleaves, hunited]
    exact fun l hl => (hback l hl).mono hext

theorem building_union_again {ts : List TypeId} (hts : ∀ u ∈ ts, u.index < s.size) :
    building.Holds s (Build.union ts) fun s' u => Build.union ts s' = (u, s') := by
  intro hs
  obtain ⟨hgrows, hformed, -⟩ := building_absorbs hts hs
  exact ⟨hgrows, hformed, union_later hts hs (.refl _) hformed⟩

/-- A union that another type is joined to is the union of all of them. -/
theorem building_join {ts : List TypeId} {u joined : TypeId} (hts : ∀ u ∈ ts, u.index < s.size)
    (hu : u.index < s.size) (hjoined : Build.union ts s = (joined, s)) :
    building.Holds s (join joined u) fun s' r => Build.union (ts ++ [u]) s' = (r, s') := by
  refine building.formed fun hs => ?_
  obtain ⟨-, -, hlt, habsorbed, hback⟩ := building_absorbs hts hs
  rw [hjoined] at hlt habsorbed hback
  have hparts : ∀ v ∈ [joined, u], v.index < s.size := by simp [hlt, hu]
  refine building.mono (building_and (building_absorbs hparts) (building_inUnionForm hparts)) ?_
  rintro s' r h hs' ⟨⟨hr, hforth, hcover⟩, hform⟩
  have hleaves : ∀ v, v.index < s.size → s'.unionLeaves v = s.unionLeaves v := fun v hv =>
    unionLeaves_eq h hs hv
  have hall : (ts ++ [u]).flatMap s'.unionLeaves = ts.flatMap s.unionLeaves ++ s.unionLeaves u := by
    rw [List.flatMap_append, List.flatMap_congr fun v hv => hleaves v (hts v hv)]
    simp [hleaves u hu]
  refine union_eq_of_absorbs hs' hr hform (fun v hv => ?_) (fun l hl => ?_) fun m hm => ?_
  · refine Nat.lt_of_lt_of_le ?_ h.size_le
    rcases List.mem_append.mp hv with hv | hv
    · exact hts v hv
    · exact List.mem_singleton.mp hv ▸ hu
  · rw [hall] at hl
    rcases List.mem_append.mp hl with hl | hl
    · exact ((habsorbed l hl).mono h).trans hs' fun m hm => hforth m (by simp [hm])
    · exact hforth l (by simp [hl])
  · rw [hall]
    refine (hcover m hm).trans hs' fun l hl => ?_
    simp only [List.flatMap_cons, List.flatMap_nil, List.append_nil, List.mem_append] at hl
    rcases hl with hl | hl
    · exact ((hback l hl).mono h).trans hs' fun k hk => .member (List.mem_append_left _ hk)
    · exact .member (List.mem_append_right _ hl)

theorem union_object {o : ObjectShape} (hs : s.Formed) (hm : m.index < s.size)
    (hn : s.node m = .object o) : Build.union [m] s = (m, s) := by
  have hunion : (s.node m).unionMembers? = none := by rw [hn]; rfl
  refine union_eq_of_absorbs hs hm (.of_not_union hunion) (by simpa using hm) ?_ ?_
  · exact fun l hl => .member (by simpa using hl)
  · exact fun l hl => .member (by simpa using hl)

/-- Objects that make up a union are united to it. -/
theorem union_objects {members : List TypeId} (hs : s.Formed) (htidy : s.Tidy)
    (hr : r.index < s.size) (hn : s.node r = .union members)
    (hobjects : ∀ m ∈ members, ∃ o, s.node m = .object o) :
    Build.union members s = (r, s) := by
  have htidy := htidy r
  rw [hn] at htidy
  have hne : ∀ m ∈ members, ∀ i : Intrinsic, m ≠ i.typeId := by
    rintro _ hm i rfl
    obtain ⟨o, ho⟩ := hobjects _ hm
    cases (hs.node_intrinsic i).symm.trans ho
  have hform : Normal.JoinForm s members := by
    refine ⟨fun m hm => ?_, fun m hm => ?_, fun m hm v hv => ?_, fun htrue => ?_⟩
    · obtain ⟨o, ho⟩ := hobjects m hm
      rw [ho]
      rfl
    · refine ⟨?_, hne m hm .any, hne m hm .unknown, hne m hm .never⟩
      rintro rfl
      obtain ⟨o, ho⟩ := hobjects _ hm
      have herror : s.node .error = .error := hs.node_fixed (i := 0) (by decide)
      cases herror.symm.trans ho
    · obtain ⟨o, ho⟩ := hobjects m hm
      cases hv.symm.trans ho
    · obtain ⟨o, ho⟩ := hobjects _ htrue
      cases (hs.node_ofBool true).symm.trans ho
  exact union_again hs hr hn htidy.1 htidy.2 hform

/-- Variants are told apart by their literals and by their members. -/
theorem Splits.filter_literal {members : List TypeId} {d : Discriminant}
    (hd : Splits s members d) (hmembers : members.Nodup) {v : TypeId × TypeId}
    (hv : v ∈ d.variants) (b : Bool) :
    (d.variants.filter fun w => decide (w.1 = v.1) == b).map (·.2) =
      members.filter fun m => decide (m = v.2) == b := by
  have hliteral := List.inj_on_of_nodup_map hd.literals
  have hmember : ∀ w ∈ d.variants, ∀ u ∈ d.variants, w.2 = u.2 → w = u :=
    List.inj_on_of_nodup_map (hd.members.symm ▸ hmembers)
  rw [← hd.members, List.filter_map]
  refine congrArg _ (List.filter_congr fun w hw => ?_)
  have hiff : w.1 = v.1 ↔ w.2 = v.2 :=
    ⟨fun h => hliteral hw hv h ▸ rfl, fun h => hmember w hw v hv h ▸ rfl⟩
  simp [hiff]

section found

variable {s₁ : Store} {e : Evaluator} {members : List TypeId} {d : Discriminant}
  (henv : setting.environment.Agrees AnyName s setting.environment) (ht : s.Closed AnyName t)
  (heval : Eval.evaluate setting t (.fresh setting.options 0 none) s = ((.ok r, e), s₁))
  (hr : s₁.node r = .union members)

include henv ht heval hr

theorem reporting_discriminants :
    reporting.Holds s (discriminants setting t) fun s' found => s₁ = s' ∧
      ∀ d ∈ found, Splits s₁ members d := by
  refine reporting.bind (reporting_resolve_evaluated henv ht heval) ?_
  rintro _ _ _ _ ⟨rfl, rfl, -⟩
  refine reporting_store fun _ => ?_
  rw [hr]
  dsimp only
  cases hmembers : members.mapM fun m => (s₁.objectShape? m).map (m, ·) with
  | none => exact reporting.pure ⟨rfl, by simp⟩
  | some shapes =>
      obtain ⟨rfl, hshapes⟩ := shapes_of_mapM hmembers
      dsimp only
      split
      · refine reporting.pure ⟨rfl, fun d hd => ?_⟩
        obtain ⟨f, -, hf⟩ := List.mem_filterMap.mp hd
        obtain ⟨variants, hvariants, rfl⟩ := Option.map_eq_some_iff.mp hf
        obtain ⟨hmembers, hliterals, hunits⟩ :=
          variantsOf_eq hvariants hshapes List.nodup_nil (by simp)
        exact ⟨by simpa using hmembers, hliterals, hunits⟩
      · exact reporting.pure ⟨rfl, by simp⟩

variable (hs : s.Formed) (htidy : s.Tidy) (hd : Splits s₁ members d)

include hs hd

/-- Narrowing by a variant unites the members on the side of the branch. -/
theorem reporting_narrow_united (branch : Branch) (hmembers : members.Nodup) {v : TypeId × TypeId}
    (hv : v ∈ d.variants) (hext : s₁.Extends s') :
    reporting.Holds s' (narrow setting t (.discriminant d.property v.1) branch) fun s'' u =>
      s₁.Extends s'' ∧
        Build.union (members.filter fun m => decide (m = v.2) == branch.isTrue) s'' = (u, s'') := by
  obtain ⟨-, hs₁, hclosed⟩ := formed_evaluated henv ht heval hs
  refine reporting.bind ((recalls_resolve henv ht heval hs).reporting hext) ?_
  rintro s₂ r _ hs₂ ⟨rfl, h₂⟩
  refine reporting_store fun _ => ?_
  have hvariants : s₂.unionMembers r = d.variants.map (·.2) := by
    rw [unionMembers_eq h₂ hclosed, unionMembers, hr, hd.members]
    rfl
  dsimp only
  rw [hvariants, List.mapM_map]
  refine reporting.bind (reporting.mapM (P := fun _ (w : TypeId × TypeId) m =>
    m = if decide (w.1 = v.1) == branch.isTrue then some w.2 else none) (fun _ h => h) ?_) ?_
  · intro w hw s₃ h₃ hs₃
    have hvariant := (hd.variants w hw).mono hs₁ (h₂.trans h₃)
    have hvalue := (hd.variants v hv).mono hs₁ (h₂.trans h₃)
    obtain ⟨o, f, hn, hf, hfield⟩ := hvariant.field
    rw [← hfield]
    exact reporting_discriminate_unit hn hf hvalue.unit (hfield ▸ hvariant.unit)
  · intro s₃ kept h₃ hs₃ hkept
    rw [filterMap_of_forall₂ hkept, hd.filter_literal hmembers hv]
    have hknown : ∀ m ∈ members, m.index < s₃.size := by
      rw [← hd.members]
      intro m hm
      obtain ⟨w, hw, rfl⟩ := List.mem_map.mp hm
      exact ((hd.variants w hw).mono hs₁ (h₂.trans h₃)).known
    have hkept : ∀ m ∈ members.filter fun m => decide (m = v.2) == branch.isTrue,
        m.index < s₃.size := fun m hm => hknown m (List.mem_filter.mp hm).1
    refine reporting_lift (building.mono (building_union_again hkept) fun s₄ u h₄ _ hu => ?_)
    exact ⟨(h₂.trans h₃).trans h₄, hu⟩

/-- Where the variant holds, its member is left. -/
theorem reporting_narrow_variant (hmembers : members.Nodup) {v : TypeId × TypeId}
    (hv : v ∈ d.variants) (hext : s₁.Extends s') :
    reporting.Holds s' (narrow setting t (.discriminant d.property v.1) .whenTrue) fun s'' u =>
      s₁.Extends s'' ∧ u = v.2 := by
  obtain ⟨-, hs₁, -⟩ := formed_evaluated henv ht heval hs
  have hunited := reporting_narrow_united henv ht heval hr hs hd .whenTrue hmembers hv hext
  refine reporting.mono hunited fun s'' u _ hs'' ⟨h, hu⟩ => ⟨h, ?_⟩
  have hvariant := (hd.variants v hv).mono hs₁ h
  obtain ⟨o, -, hn, -⟩ := hvariant.field
  have hone : (members.filter fun m => decide (m = v.2) == Branch.whenTrue.isTrue) = [v.2] := by
    have hmem : v.2 ∈ members := hd.members ▸ List.mem_map_of_mem hv
    have hfilter : (members.filter fun m => decide (m = v.2) == Branch.whenTrue.isTrue) =
        members.filter (· == v.2) := List.filter_congr fun m _ => by
        simp only [Branch.isTrue, decide_true, beq_true]
        rfl
    rw [hfilter, List.filter_beq, List.count_eq_one_of_mem hmembers hmem]
    rfl
  rw [hone, union_object hs'' hvariant.known hn] at hu
  exact (Prod.ext_iff.mp hu).1.symm

/-- The members that are left for the variants, joined one after the other, are united. -/
theorem reporting_join_variants (hmembers : members.Nodup) (hext : s₁.Extends s') :
    reporting.Holds s' (d.variants.foldlM (fun joined v => do
        let left ← narrow setting t (.discriminant d.property v.1) .whenTrue
        join joined left) .never : Reporting TypeId) fun s'' u =>
      s₁.Extends s'' ∧ Build.union members s'' = (u, s'') := by
  obtain ⟨-, hs₁, -⟩ := formed_evaluated henv ht heval hs
  refine reporting.formed fun hs' => ?_
  have hempty : Build.union [] s' = (.never, s') := rfl
  refine reporting.mono (reporting.foldlM (P := fun s'' (done : List (TypeId × TypeId)) u =>
    s₁.Extends s'' ∧ (∀ v ∈ done, v.2.index < s''.size) ∧
      Build.union (done.map (·.2)) s'' = (u, s'')) ⟨hext, by simp, hempty⟩ ?_) ?_
  · intro v hv s₂ done joined h₂ hs₂ ⟨hext₂, hdone, hjoined⟩
    refine reporting.bind (reporting_narrow_variant henv ht heval hr hs hd hmembers hv hext₂) ?_
    rintro s₃ u h₃ hs₃ ⟨hext₃, rfl⟩
    have hknown := ((hd.variants v hv).mono hs₁ hext₃).known
    have hdone' : ∀ m ∈ done.map (·.2), m.index < s₂.size := by
      intro m hm
      obtain ⟨w, hw, rfl⟩ := List.mem_map.mp hm
      exact hdone w hw
    have hgrows : (Build.union (done.map (·.2)) s₂).2.Extends s₃ := by
      rw [hjoined]
      exact h₃
    have hagain : Build.union (done.map (·.2)) s₃ = (joined, s₃) := by
      rw [union_later hdone' hs₂ hgrows hs₃, hjoined]
    have hlater : ∀ w ∈ done, w.2.index < s₃.size := fun w hw =>
      Nat.lt_of_lt_of_le (hdone w hw) h₃.size_le
    refine reporting_lift (building.mono (building_join ?_ hknown hagain) ?_)
    · exact fun m hm => Nat.lt_of_lt_of_le (hdone' m hm) h₃.size_le
    · intro s₄ u h₄ _ hu
      refine ⟨hext₃.trans h₄, fun w hw => ?_, by simpa using hu⟩
      refine Nat.lt_of_lt_of_le ?_ h₄.size_le
      rcases List.mem_append.mp hw with hw | hw
      · exact hlater w hw
      · exact List.mem_singleton.mp hw ▸ hknown
  · rintro s₂ u _ _ ⟨h, -, hu⟩
    exact ⟨h, hd.members ▸ hu⟩

end found

/-- A discriminant that is found tells the members of the union apart: each has a variant, narrowing
by the literal of a variant leaves its member on one side and the union of the others on the other
side, and what is left on the first sides is joined to the union. -/
theorem discriminants_tell_members_apart {setting : Setting} {s s₁ : Store} {t r : TypeId}
    {e : Evaluator} {members : List TypeId} (hs : s.Formed) (htidy : s.Tidy)
    (henv : setting.environment.Agrees AnyName s setting.environment) (ht : t.index < s.size)
    (heval : Eval.evaluate setting t (.fresh setting.options 0 none) s = ((.ok r, e), s₁))
    (hr : s₁.node r = .union members) (ds : Array Diagnostic) :
    let found := discriminants setting t ds s
    ∀ d ∈ found.1.1, d.variants.map (·.2) = members ∧ members.Nodup ∧
      ∀ s', found.2.Extends s' → s'.Formed → ∀ ds',
        (∀ v ∈ d.variants,
          (narrow setting t (.discriminant d.property v.1) .whenTrue ds' s').1.1 = v.2 ∧
          let others := narrow setting t (.discriminant d.property v.1) .whenFalse ds' s'
          Build.union (members.filter (· ≠ v.2)) others.2 = (others.1.1, others.2)) ∧
        ((d.variants.foldlM (fun joined v => do
            let left ← narrow setting t (.discriminant d.property v.1) .whenTrue
            join joined left) .never : Reporting TypeId) ds' s').1.1 = r := by
  intro found d hd
  have hclosed : s.Closed AnyName t := hs.closed_of_known ht
  obtain ⟨-, hs₁, hrClosed⟩ := formed_evaluated henv hclosed heval hs
  obtain ⟨-, -, hstore, hsplits⟩ := reporting_discriminants henv hclosed heval hr ds hs
  have hsplit := hsplits d hd
  have htidy₁ : s₁.Tidy := by
    have hkeeps : (Eval.evaluate setting t (.fresh setting.options 0 none) s).2.Tidy :=
      (Tidy.keeps_evaluate setting t (.fresh setting.options 0 none) s htidy).1
    rwa [heval] at hkeeps
  have hsorted : 2 ≤ members.length ∧ s₁.InOrder members := by
    have hnode := htidy₁ r
    rwa [hr] at hnode
  have hmembers : members.Nodup := TypeId.nodup_of_sorted hsorted.2
  refine ⟨hsplit.members, hmembers, fun s' hext hs' ds' => ⟨fun v hv => ⟨?_, ?_⟩, ?_⟩⟩
  · rw [← hstore] at hext
    exact (reporting_narrow_variant henv hclosed heval hr hs hsplit hmembers hv hext ds' hs').2.2.2
  · rw [← hstore] at hext
    have hunited := (reporting_narrow_united henv hclosed heval hr hs hsplit .whenFalse
      hmembers hv hext ds' hs').2.2.2
    have hothers : (members.filter fun m => decide (m = v.2) == Branch.whenFalse.isTrue) =
        members.filter (· ≠ v.2) := List.filter_congr fun m _ => by
      by_cases h : m = v.2 <;> simp [h, Branch.isTrue]
    rwa [hothers] at hunited
  · rw [← hstore] at hext
    have hjoin := reporting_join_variants henv hclosed heval hr hs hsplit hmembers hext ds' hs'
    obtain ⟨-, hs₂, hext₂, hjoined⟩ := hjoin
    have hobjects : ∀ m ∈ members, ∃ o, s₁.node m = .object o := by
      rw [← hsplit.members]
      intro m hm
      obtain ⟨v, hv, rfl⟩ := List.mem_map.mp hm
      obtain ⟨o, -, hn, -⟩ := (hsplit.variants v hv).field
      exact ⟨o, hn⟩
    have hwhole := union_objects hs₁ htidy₁ hrClosed.known hr hobjects
    have hknown : ∀ m ∈ members, m.index < s₁.size := fun m hm =>
      (closed_of_mem_unionMembers hrClosed (by rwa [unionMembers, hr])).known
    have hlater := union_later hknown hs₁ (by rwa [hwhole]) hs₂
    rw [hwhole, hjoined] at hlater
    exact (Prod.ext_iff.mp hlater).1

/-- The union of `{ kind: "circle" }`, `{ kind: true }` and `{ kind: null }`. -/
def taggedSample : Build TypeId := do
  let circle ← Build.stringLiteral "circle"
  let first ← Build.object (.single "kind" circle)
  let second ← Build.object (.single "kind" .trueLiteral)
  let third ← Build.object (.single "kind" .null)
  Build.union [first, second, third]

theorem formed_taggedSample : (taggedSample .empty).2.Formed := by
  have hrun : building.Holds .empty taggedSample fun _ _ => True := by
    refine building.bind (building_intern (n := .literal (.string "circle"))
      (by simp [Node.components])) fun s₁ circle _ hs₁ hcircle => ?_
    have hobject : ∀ {s : Store} {u}, u.index < s.size →
        building.Holds s (Build.object (.single "kind" u)) fun s' m => m.index < s'.size :=
      fun hu => building.mono (building_intern
        (by simpa [Node.components, ObjectShape.single] using hu)) fun _ _ _ _ h => h.1
    refine building.bind (hobject hcircle.1) fun s₂ first h₂ hs₂ hfirst => ?_
    refine building.bind (hobject (hs₂.known_of_isFixed rfl)) fun s₃ second h₃ hs₃ hsecond => ?_
    refine building.bind (hobject (hs₃.known_of_isFixed rfl)) fun s₄ third h₄ hs₄ hthird => ?_
    refine building.mono (building_inUnionForm ?_) fun _ _ _ _ _ => trivial
    have hfirst' := Nat.lt_of_lt_of_le hfirst (h₃.trans h₄).size_le
    have hsecond' := Nat.lt_of_lt_of_le hsecond h₄.size_le
    simp [hfirst', hsecond', hthird]
  exact (hrun formed_empty).2.1

theorem tidy_taggedSample : (taggedSample .empty).2.Tidy := by
  have hrun : Tidy.Keeps taggedSample := by
    refine Tidy.keeps_bind (Tidy.keeps_stringLiteral _) fun circle => ?_
    have hobject : ∀ u, Tidy.Keeps (Build.object (.single "kind" u)) := fun u =>
      Tidy.keeps_object (List.nodup_singleton _)
    refine Tidy.keeps_bind (hobject circle) fun first => ?_
    refine Tidy.keeps_bind (hobject .trueLiteral) fun second => ?_
    exact Tidy.keeps_bind (hobject .null) fun third => Tidy.keeps_union _
  exact (hrun _ tidy_empty).1

/-- The tag of the sample tells its three members apart. -/
theorem discriminants_tell_tagged_apart :
    let made := taggedSample .empty
    let setting : Setting := ⟨.empty, .standard⟩
    let found := discriminants setting made.1 #[] made.2
    ∃ d ∈ found.1.1, d.property = "kind" ∧ d.variants.length = 3 ∧
      (∀ v ∈ d.variants,
        (narrow setting made.1 (.discriminant "kind" v.1) .whenTrue #[] found.2).1.1 = v.2) ∧
      ((d.variants.foldlM (fun joined v => do
          let left ← narrow setting made.1 (.discriminant "kind" v.1) .whenTrue
          join joined left) .never : Reporting TypeId) #[] found.2).1.1 = made.1 := by
  intro made setting found
  have hmade : made.1.index < made.2.size := by
    subst made
    cbv
  have henv : setting.environment.Agrees AnyName made.2 setting.environment := by
    refine ⟨fun _ _ => rfl, fun name a _ ha => ?_, fun name a _ ha => ?_⟩ <;> cases ha
  have hevaluated :
      let run := Eval.evaluate setting made.1 (.fresh setting.options 0 none) made.2
      run.1.1 = .ok made.1 ∧ run.2.node made.1 = .union [⟨13⟩, ⟨14⟩, ⟨15⟩] := by
    subst setting made
    cbv
  have hfound : found.1.1.map (fun d => (d.property, d.variants.length)) = [("kind", 3)] := by
    subst found setting made
    cbv
  obtain ⟨hvalue, hnode⟩ := hevaluated
  rcases hrun : Eval.evaluate setting made.1 (.fresh setting.options 0 none) made.2 with
    ⟨⟨v, e⟩, s₁⟩
  rw [hrun] at hvalue hnode
  subst hvalue
  obtain ⟨d, hd, htag⟩ : ∃ d ∈ found.1.1, (d.property, d.variants.length) = ("kind", 3) :=
    List.mem_map.mp (hfound ▸ List.mem_singleton_self _)
  obtain ⟨htag, hthree⟩ := Prod.ext_iff.mp htag
  have hformed : found.2.Formed := by
    have hclosed := formed_taggedSample.closed_of_known hmade
    exact (reporting_discriminants henv hclosed hrun hnode #[] formed_taggedSample).2.1
  obtain ⟨-, -, hapart⟩ := discriminants_tell_members_apart formed_taggedSample
    tidy_taggedSample henv hmade hrun hnode #[] d hd
  obtain ⟨hvariants, hjoined⟩ := hapart found.2 (.refl _) hformed #[]
  dsimp only at htag
  rw [htag] at hvariants hjoined
  exact ⟨d, hd, htag, hthree, fun v hv => (hvariants v hv).1, hjoined⟩

end Narrowing

end TypeResolution
