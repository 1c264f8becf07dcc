import Mathlib
import TypeResolution.Proofs.Narrowing.Services
import TypeResolution.Proofs.Normal.Absorption

/-!
The branches of a condition join to the type that was narrowed. Every member of the type remains
whole in one of the branches, or, as `boolean` does, in halves in both; what a member is cut down to
is absorbed by the member. So the members of both branches absorb those of the type and are absorbed
by them, and uniting them gives the type again.
-/

namespace TypeResolution

open Store Replay

def Branch.other : Branch → Branch
  | .whenTrue => .whenFalse
  | .whenFalse => .whenTrue

theorem Branch.eq_or_eq_other (b branch : Branch) : b = branch ∨ b = branch.other := by
  cases b <;> cases branch <;> decide

/-- Nodes whose values may be of any kind. -/
def Node.hidesKind : Node → Bool
  | .param _ | .intersection _ => true
  | .reference .. | .conditional _ | .mapped _ | .indexAccess .. => true
  | _ => false

namespace Narrowing

/-- A member where a condition holds, or where it does not. -/
def wholeIf (holds : Bool) (branch : Branch) (m : TypeId) : List TypeId :=
  if holds = branch.isTrue then [m] else []

/-- What is told to remain of a member in a branch. -/
def remains (s : Store) (guard : TypeGuard) (branch : Branch) (m : TypeId) : List TypeId :=
  match guard with
  | .typeof kind => wholeIf (typeofMatch s kind m = .always) branch m
  | .nullishEquality => wholeIf m.isNullish branch m
  | .truthy =>
      if m = .boolean then [.ofBool branch.isTrue]
      else wholeIf (truthiness s m ≠ .never) branch m
  | .inProperty name => wholeIf (presence name (s.node m) ≠ .never) branch m
  | _ => []

/-- Conditions whose branches join to the type that they narrow. -/
def Rejoins (s : Store) (t : TypeId) : TypeGuard → Prop
  | .nullishEquality | .truthy | .inProperty _ => True
  | .typeof _ => t ≠ .never ∧ ∀ m ∈ s.unionMembers t, (s.node m).hidesKind = false
  | _ => False

/-- A type that is absorbed by the members `ms` and absorbs those in `kept`. -/
structure Part (s : Store) (ms kept : List TypeId) (t : TypeId) : Prop where
  closed : s.Closed AnyName t
  within : ∀ l ∈ s.unionLeaves t, Absorbs s ms l
  keeps : ∀ l ∈ kept, Absorbs s (s.unionLeaves t) l

namespace Part

variable {s s' : Store} {ms kept kept' : List TypeId} {t : TypeId}

theorem mono (h : Part s ms kept t) (hext : s.Extends s') : Part s' ms kept t := by
  have hleaves : s'.unionLeaves t = s.unionLeaves t :=
    leavesAt_eq hext Node.unionMembers?_subset h.closed
  refine ⟨hext.closed h.closed, fun l hl => ?_, fun l hl => ?_⟩
  · exact (h.within l (hleaves ▸ hl)).mono hext
  · exact hleaves.symm ▸ (h.keeps l hl).mono hext

theorem of_subset (h : Part s ms kept t) (hkept : ∀ l ∈ kept', l ∈ kept) : Part s ms kept' t :=
  ⟨h.closed, h.within, fun l hl => h.keeps l (hkept l hl)⟩

/-- A type that is no union, as a part of members that absorb it. -/
theorem of_absorbs (ht : s.Closed AnyName t) (hunion : s.unionMembers? t = none)
    (habsorbs : Absorbs s ms t) (hkept : ∀ l ∈ kept, l = t) : Part s ms kept t := by
  have hleaves : s.unionLeaves t = [t] := unionLeaves_of_not_union hunion
  refine ⟨ht, fun l hl => ?_, fun l hl => ?_⟩
  · exact List.mem_singleton.mp (hleaves ▸ hl) ▸ habsorbs
  · rw [hkept l hl, hleaves]
    exact .member (List.mem_singleton_self t)

end Part

section parts

variable {s : Store} {ms us : List TypeId} {α : Type}

/-- Uniting parts gives a part that keeps what they keep. -/
theorem building_unite (left : α → List TypeId) {xs : List α}
    (h : List.Forall₂ (fun x u => Part s ms (left x) u) xs us) :
    building.Holds s (Build.union us) (Part · ms (xs.flatMap left)) := by
  refine building.formed fun hs => ?_
  have hwithin : ∀ u ∈ us, s.Closed AnyName u ∧ ∀ l ∈ s.unionLeaves u, Absorbs s ms l :=
    forall_right_of_forall₂ h fun _ _ hpart => ⟨hpart.closed, hpart.within⟩
  refine building.mono (building_absorbs fun u hu => (hwithin u hu).1.known)
    fun s' r hext hs' ⟨hr, hforth, hback⟩ =>
      ⟨hs'.closed_of_known hr, fun l hl => ?_, fun l hl => ?_⟩
  · refine (hback l hl).trans hs' fun m hm => ?_
    obtain ⟨u, hu, hm⟩ := List.mem_flatMap.mp hm
    exact ((hwithin u hu).2 m hm).mono hext
  · obtain ⟨x, hx, hl⟩ := List.mem_flatMap.mp hl
    obtain ⟨u, hu, hkeeps⟩ := exists_of_forall₂ (p := fun x => l ∈ left x)
      (q := fun u => Absorbs s (s.unionLeaves u) l) h (fun _ _ hpart => hpart.keeps l) ⟨x, hx, hl⟩
    exact (hkeeps.mono hext).trans hs' fun m hm => hforth m (List.mem_flatMap.mpr ⟨u, hu, hm⟩)

/-- The members that a judgement keeps are treated one by one and united. The others are told to
leave nothing. -/
theorem building_judged (judge : TypeId → Match) {branch : Branch} {left : TypeId → List TypeId}
    {step : TypeId × Match → Build TypeId}
    (hdropped : ∀ m ∈ ms, (judge m).keeps branch = false → left m = [])
    (hstep : ∀ m ∈ ms, (judge m).keeps branch → ∀ s₁, s.Extends s₁ → s₁.Formed →
      building.Holds s₁ (step (m, judge m)) (Part · ms (left m))) :
    building.Holds s
      (do
        let narrowed ← ((ms.map fun m => (m, judge m)).filter (·.2.keeps branch)).mapM step
        Build.union narrowed : Build TypeId)
      (Part · ms (ms.flatMap left)) := by
  refine building_sift (R := fun s' m u => Part s' ms (left m) u)
    (fun hext hpart => hpart.mono hext) hstep fun s₁ us _ hus => ?_
  refine building.mono (building_unite left hus) fun s₂ y _ _ hy => hy.of_subset fun l hl => ?_
  obtain ⟨m, hm, hl⟩ := List.mem_flatMap.mp hl
  have hkeeps : (judge m).keeps branch := by
    by_contra hdrop
    rw [hdropped m hm (by simpa using hdrop)] at hl
    cases hl
  exact List.mem_flatMap.mpr ⟨m, List.mem_filter.mpr ⟨hm, hkeeps⟩, hl⟩

end parts

section wholes

variable {s : Store} {ms : List TypeId} {holds : Bool} {branch : Branch} {l m : TypeId}

theorem mem_wholeIf : l ∈ wholeIf holds branch m ↔ holds = branch.isTrue ∧ l = m := by
  unfold wholeIf
  split <;> simp_all

theorem wholeIf_eq_nil (h : holds ≠ branch.isTrue) : wholeIf holds branch m = [] := if_neg h

/-- What holds always, or else never, decides the branch that a member stays in. -/
theorem keeps_of_eq {found : Match} (h : decide (found = .always) = branch.isTrue ∨
    decide (found ≠ .never) = branch.isTrue) : found.keeps branch := by
  cases found <;> cases branch <;> revert h <;> decide

/-- In one of the branches the member is whole. -/
theorem absorbs_of_wholeIf (h : ∀ branch, ∀ l ∈ wholeIf holds branch m, Absorbs s ms l) :
    Absorbs s ms m := by
  cases holds with
  | true => exact h .whenTrue m (by simp [wholeIf, Branch.isTrue])
  | false => exact h .whenFalse m (by simp [wholeIf, Branch.isTrue])

/-- What absorbs all that remains of a member in the branches absorbs the member. -/
theorem absorbs_of_remains {s₀ : Store} {t : TypeId} {guard : TypeGuard} (hs : s.Formed)
    (hguard : Rejoins s₀ t guard)
    (h : ∀ branch, ∀ l ∈ remains s₀ guard branch m, Absorbs s ms l) : Absorbs s ms m := by
  cases guard with
  | typeof _ => exact absorbs_of_wholeIf h
  | nullishEquality => exact absorbs_of_wholeIf h
  | inProperty _ => exact absorbs_of_wholeIf h
  | truthy =>
      by_cases hboolean : m = .boolean
      · have hhalf : ∀ branch, Absorbs s ms (.ofBool (Branch.isTrue branch)) := fun branch =>
          h branch _ (by simp [remains, hboolean])
        exact hboolean ▸ .of_halves hs (hhalf .whenTrue) (hhalf .whenFalse)
      · simp only [remains, if_neg hboolean] at h
        exact absorbs_of_wholeIf h
  | literalEquality _ => exact hguard.elim
  | discriminant _ _ => exact hguard.elim
  | predicate _ => exact hguard.elim

end wholes

section top

variable {s s' : Store} {r m : TypeId} (hs : s.Formed) (htop : r.isAnyOrUnknown)

include hs htop

theorem not_union_of_isAnyOrUnknown : s.unionMembers? r = none ∧ s.unionMembers r = [r] := by
  have hfixed : r.isFixed := by
    have htop : r = .any ∨ r = .unknown := by simpa [TypeId.isAnyOrUnknown] using htop
    rcases htop with rfl | rfl <;> rfl
  have hunion := unionMembers?_fixed hs hfixed
  exact ⟨hunion, unionMembers_of_not_union hunion⟩

/-- `any` and `unknown` absorb all but the error type and `any`. -/
theorem part_of_isAnyOrUnknown (hm : s'.Closed AnyName m) (hunion : s'.unionMembers? m = none)
    (herror : m ≠ .error) (hany : m ≠ .any) : Part s' (s.unionMembers r) [] m := by
  refine .of_absorbs hm hunion ?_ (by simp)
  rw [(not_union_of_isAnyOrUnknown hs htop).2]
  have htop : r = .any ∨ r = .unknown := by simpa [TypeId.isAnyOrUnknown] using htop
  rcases htop with rfl | rfl
  · exact .any (List.mem_singleton_self _) herror
  · exact .unknown (List.mem_singleton_self _) herror hany

theorem part_fixed (hs' : s'.Formed) (hm : m.isFixed ∧ m ≠ .error ∧ m ≠ .any) :
    Part s' (s.unionMembers r) [] m := by
  obtain ⟨hfixed, herror, hany⟩ := hm
  exact part_of_isAnyOrUnknown hs htop (hs'.closed_fixed hfixed) (unionMembers?_fixed hs' hfixed)
    herror hany

/-- Where a condition on their kind holds, `any` and `unknown` become something else. -/
theorem remains_isAnyOrUnknown :
    (s.unionMembers r).flatMap (remains s .nullishEquality .whenTrue) = [] ∧
      ∀ kind, (s.unionMembers r).flatMap (remains s (.typeof kind) .whenTrue) = [] := by
  have hmatch : ∀ kind, r.isNullish = false ∧ typeofMatch s kind r = .sometimes := by
    intro kind
    have htop : r = .any ∨ r = .unknown := by simpa [TypeId.isAnyOrUnknown] using htop
    have hany : s.node .any = .intrinsic .any := hs.node_intrinsic .any
    have hunknown : s.node .unknown = .intrinsic .unknown := hs.node_intrinsic .unknown
    rcases htop with rfl | rfl
    · exact ⟨rfl, by rw [typeofMatch, typeofMatchAt, hany]; rfl⟩
    · exact ⟨rfl, by rw [typeofMatch, typeofMatchAt, hunknown]; rfl⟩
  rw [(not_union_of_isAnyOrUnknown hs htop).2]
  refine ⟨?_, fun kind => ?_⟩
  · simp [remains, hmatch .string, wholeIf, Branch.isTrue]
  · simp [remains, hmatch kind, wholeIf, Branch.isTrue]

/-- What `any` and `unknown` become is absorbed by them. -/
theorem building_ofKind (kind : TypeofKind) (hr : s.Closed AnyName r) :
    building.Holds s (ofKind kind r) (Part · (s.unionMembers r) []) := by
  unfold ofKind
  cases kind with
  | string | number | boolean | undefined =>
      exact building.pure (part_fixed hs htop hs (by decide))
  | function =>
      obtain ⟨hunion, hmembers⟩ := not_union_of_isAnyOrUnknown hs htop
      exact building.pure (.of_absorbs hr hunion (.member (by simp [hmembers])) (by simp))
  | object =>
      refine building.bind (kept_settled.makes_object (o := ⟨[], none⟩) (by simp [Node.components]))
        fun s₁ u hext hs₁ ⟨hsettled, p, hn, _⟩ => ?_
      have hobject : s₁.isObject u := by simp [isObject, objectShape?, hn]
      obtain ⟨herror, -, hany, -⟩ := Normal.plain_of_isObject hs₁ hobject
      have hparts : List.Forall₂ (fun _ v => Part s₁ (s.unionMembers r) [] v)
          [u, .null] [u, .null] := by
        refine .cons ?_ (.cons (part_fixed hs htop hs₁ (by decide)) .nil)
        exact part_of_isAnyOrUnknown hs htop (hs₁.closed_of_known hsettled.known)
          (Normal.unionMembers?_of_isObject hobject) herror hany
      exact building_unite (fun _ => []) hparts

end top

section members

variable {s s' : Store} {r m : TypeId} {kept : List TypeId}
  (hr : s.Closed AnyName r) (hflat : s.IsFlat r)

include hr hflat

theorem part_member (hext : s.Extends s') (hm : m ∈ s.unionMembers r) (hkept : ∀ l ∈ kept, l = m) :
    Part s' (s.unionMembers r) kept m := by
  have hclosed := closed_of_mem_unionMembers hr hm
  refine .of_absorbs (hext.closed hclosed) ?_ (.member hm) hkept
  rw [unionMembers?_eq hext hclosed]
  exact hflat m hm

/-- The whole type keeps all of its members. -/
theorem part_whole {left : TypeId → List TypeId} (hleft : ∀ m, ∀ l ∈ left m, l = m) :
    Part s (s.unionMembers r) ((s.unionMembers r).flatMap left) r := by
  have hleaves := hflat.mem_unionLeaves
  refine ⟨hr, fun l hl => .member (hleaves ▸ hl), fun l hl => .member ?_⟩
  obtain ⟨m, hm, hl⟩ := List.mem_flatMap.mp hl
  rw [hleaves, hleft m l hl]
  exact hm

/-- Uniting the members that pass a test keeps these. -/
theorem building_filtered {p : TypeId → Bool} {left : TypeId → List TypeId}
    (hleft : ∀ m, ∀ l ∈ left m, l = m ∧ p m) :
    building.Holds s (Build.union ((s.unionMembers r).filter p))
      (Part · (s.unionMembers r) ((s.unionMembers r).flatMap left)) := by
  have hparts : List.Forall₂ (fun m u => Part s (s.unionMembers r) (left m) u)
      ((s.unionMembers r).filter p) ((s.unionMembers r).filter p) :=
    List.forall₂_same.mpr fun m hm => part_member hr hflat (.refl s) (List.mem_filter.mp hm).1
      fun l hl => (hleft m l hl).1
  refine building.mono (building_unite left hparts) fun s₁ y _ _ hy => hy.of_subset fun l hl => ?_
  obtain ⟨m, hm, hl⟩ := List.mem_flatMap.mp hl
  exact List.mem_flatMap.mpr ⟨m, List.mem_filter.mpr ⟨hm, (hleft m l hl).2⟩, hl⟩

end members

section guards

variable {s : Store} {r : TypeId} {branch : Branch} (hs : s.Formed) (hr : s.Closed AnyName r)
  (hflat : s.IsFlat r)

include hs hr hflat

theorem building_byNullish :
    building.Holds s (byNullish branch r) (Part · (s.unionMembers r)
      ((s.unionMembers r).flatMap (remains s .nullishEquality branch))) := by
  unfold byNullish
  split
  · rename_i htop
    cases branch with
    | whenTrue =>
        have hpart : ∀ u ∈ [TypeId.null, .undefined], Part s (s.unionMembers r) [] u := fun u hu =>
          part_fixed hs htop hs (by revert u; decide)
        rw [(remains_isAnyOrUnknown hs htop).1]
        exact building_unite (fun _ => []) (List.forall₂_same.mpr hpart)
    | whenFalse =>
        exact building.pure (part_whole hr hflat fun m l hl => (mem_wholeIf.mp hl).2)
  · refine building_get (building_filtered hr hflat fun m l hl => ?_)
    obtain ⟨hside, rfl⟩ := mem_wholeIf.mp hl
    exact ⟨rfl, by simpa using hside⟩

omit hs in
theorem building_byPresence (name : String) :
    building.Holds s (byPresence name branch r) (Part · (s.unionMembers r)
      ((s.unionMembers r).flatMap (remains s (.inProperty name) branch))) := by
  unfold byPresence
  split
  · exact building.pure (part_whole hr hflat fun m l hl => (mem_wholeIf.mp hl).2)
  · refine building_get (building_filtered hr hflat fun m l hl => ?_)
    obtain ⟨hside, rfl⟩ := mem_wholeIf.mp hl
    exact ⟨rfl, keeps_of_eq (.inr hside)⟩

omit hs hr hflat in
/-- A half of `boolean` is absorbed by `boolean`. -/
theorem part_ofBool {s' : Store} (hs' : s'.Formed) (b : Bool) (hm : .boolean ∈ s.unionMembers r) :
    Part s' (s.unionMembers r) [.ofBool b] (.ofBool b) := by
  have hfixed : (TypeId.ofBool b).isFixed := by cases b <;> rfl
  exact .of_absorbs (hs'.closed_fixed hfixed) (unionMembers?_fixed hs' hfixed)
    (.literal (hs'.node_ofBool b) hm) (by simp)

omit hs hr hflat in
theorem building_cutLiteral {s₁ : Store} (v : Literal) (hm : v.primitive ∈ s.unionMembers r) :
    building.Holds s₁ (Build.intern (.literal v)) (Part · (s.unionMembers r) []) := by
  refine building.mono (building_node (by simp [Node.components]) (by simp)) fun s₂ u _ hs₂ hu => ?_
  refine .of_absorbs (hs₂.closed_of_known hu.1) ?_ (.literal hu.2 hm) (by simp)
  rw [unionMembers?, hu.2]
  rfl

omit hs in
theorem building_cutToTruth {s₁ : Store} {m : TypeId} (hext : s.Extends s₁) (hs₁ : s₁.Formed)
    (hm : m ∈ s.unionMembers r) (hfound : truthiness s m = .sometimes) :
    building.Holds s₁ (cutToTruth branch m)
      (Part · (s.unionMembers r) (remains s .truthy branch m)) := by
  unfold cutToTruth
  by_cases hboolean : m = .boolean
  · subst hboolean
    cases branch with
    | whenTrue => exact building.pure (part_ofBool hs₁ true hm)
    | whenFalse => exact building.pure (part_ofBool hs₁ false hm)
  simp only [remains, if_neg hboolean, hfound]
  cases branch with
  | whenTrue =>
      exact building.pure (part_member hr hflat hext hm fun l hl => (mem_wholeIf.mp hl).2)
  | whenFalse =>
      by_cases hstring : m = .string
      · subst hstring
        exact building_cutLiteral (.string "") hm
      rw [if_neg (by decide), if_neg hstring]
      by_cases hnumber : m = .number
      · subst hnumber
        exact building_cutLiteral (.number Number.zero.canonical) hm
      rw [if_neg hnumber]
      exact building.pure (part_member hr hflat hext hm fun l hl => (mem_wholeIf.mp hl).2)

theorem building_byTruth :
    building.Holds s (byTruth branch r) (Part · (s.unionMembers r)
      ((s.unionMembers r).flatMap (remains s .truthy branch))) := by
  have hboolean : truthiness s .boolean = .sometimes := by
    rw [truthiness, show s.node .boolean = .intrinsic .boolean from hs.node_intrinsic .boolean]
  refine building_get (building_judged (truthiness s) (fun m hm hdrop => ?_)
    fun m hm hkeeps s₁ hext hs₁ => ?_)
  · have hne : m ≠ .boolean := by
      rintro rfl
      rw [hboolean] at hdrop
      cases hdrop
    rw [remains, if_neg hne]
    exact wholeIf_eq_nil fun h => by simp [keeps_of_eq (.inr h)] at hdrop
  · dsimp only
    split
    · exact building_cutToTruth hr hflat hext hs₁ hm ‹_›
    · rename_i hfound
      have hne : m ≠ .boolean := fun he => hfound (he ▸ hboolean)
      rw [remains, if_neg hne]
      exact building.pure (part_member hr hflat hext hm fun l hl => (mem_wholeIf.mp hl).2)

omit hr hflat in
/-- Only what absorbs others, or is empty, is of no certain kind. -/
theorem eq_top_of_sometimes {kind : TypeofKind} {m : TypeId} (hm : m.index < s.size)
    (hfound : typeofMatch s kind m = .sometimes) (hunion : s.unionMembers? m = none)
    (hhides : (s.node m).hidesKind = false) :
    m = .error ∨ m = .any ∨ m = .unknown ∨ m = .never := by
  have hjudged : ∀ {found}, kindOf? (s.node m) ≠ some found := by
    intro found hkind
    rw [typeofMatch_of_kindOf hkind] at hfound
    split at hfound <;> cases hfound
  cases hn : s.node m with
  | error =>
      have herror : s.node .error = .error := hs.node_fixed (i := 0) (by decide)
      exact .inl (hs.eq_of_node_eq hm (hs.known_of_isFixed rfl) (hn.trans herror.symm))
  | intrinsic k =>
      rw [hs.eq_of_intrinsic hm hn]
      cases k with
      | any => exact .inr (.inl rfl)
      | unknown => exact .inr (.inr (.inl rfl))
      | never => exact .inr (.inr (.inr rfl))
      | _ => exact absurd (by rw [hn]; rfl) hjudged
  | literal v => cases v <;> exact absurd (by rw [hn]; rfl) hjudged
  | union ms =>
      exact absurd hn (unionMembers?_eq_none_iff.mp hunion _)
  | object _ | array _ | function _ | template _ | stringMap _ _ =>
      exact absurd (by rw [hn]; rfl) hjudged
  | intersection _ | param _ | conditional _ | mapped _ | reference _ _ | indexAccess _ _ =>
      simp [hn, Node.hidesKind] at hhides

theorem building_byTypeof (kind : TypeofKind) (hform : InUnionForm s r)
    (hguard : Rejoins s r (.typeof kind)) :
    building.Holds s (byTypeof kind branch r) (Part · (s.unionMembers r)
      ((s.unionMembers r).flatMap (remains s (.typeof kind) branch))) := by
  unfold byTypeof
  split
  · rename_i htop
    cases branch with
    | whenTrue =>
        rw [(remains_isAnyOrUnknown hs htop).2]
        exact building_ofKind hs htop kind hr
    | whenFalse => exact building.pure (part_whole hr hflat fun m l hl => (mem_wholeIf.mp hl).2)
  · rename_i htop
    refine building_get (building_judged (typeofMatch s kind) (fun m hm hdrop => ?_)
      fun m hm hkeeps s₁ hext hs₁ => ?_)
    · exact wholeIf_eq_nil fun h => by simp [keeps_of_eq (.inl h)] at hdrop
    dsimp only
    split
    · rename_i hcut
      simp only [Bool.and_eq_true, decide_eq_true_eq] at hcut
      have hclosed := closed_of_mem_unionMembers hr hm
      have hm' : m ∈ s.unionLeaves r := hflat.mem_unionLeaves ▸ hm
      rcases eq_top_of_sometimes hs hclosed.known hcut.2 (hflat m hm) (hguard.2 m hm) with
        rfl | rfl | rfl | rfl
      · -- the error type absorbs whatever it is cut down to
        have hkept : remains s (.typeof kind) branch .error = [] :=
          wholeIf_eq_nil (by simp [hcut.1, hcut.2])
        rw [hkept]
        have hcloses : building.Holds s₁ (cutToKind kind .error) fun s₂ y => s₂.Closed AnyName y :=
          building_follows (L := .free AnyName) (follows_cutToKind (hext.closed hclosed))
        exact building.mono hcloses fun s₂ y _ _ hy => ⟨hy, fun _ _ => .error hm, by simp⟩
      · exact absurd (by rw [hform.eq_of_mem_leaves hm' (by simp)]; rfl) htop
      · exact absurd (by rw [hform.eq_of_mem_leaves hm' (by simp)]; rfl) htop
      · exact absurd (hform.eq_of_mem_leaves hm' (by simp)) hguard.1
    · exact building.pure (part_member hr hflat hext hm fun l hl => (mem_wholeIf.mp hl).2)

end guards

section later

variable {s s' : Store} {r m : TypeId} {guard : TypeGuard}

theorem remains_eq {P : String → Prop} {branch : Branch} (hext : s.Extends s')
    (hm : s.Closed P m) : remains s' guard branch m = remains s guard branch m := by
  unfold remains typeofMatch
  cases guard with
  | typeof kind => simp only [typeofMatchAt_eq hext hm]
  | truthy => simp only [truthiness_eq hext hm]
  | inProperty name => simp only [hm.node_eq hext]
  | _ => rfl

theorem Rejoins.mono (h : Rejoins s r guard) (hext : s.Extends s') (hr : s.Closed AnyName r) :
    Rejoins s' r guard := by
  cases guard with
  | typeof kind =>
      refine ⟨h.1, fun m hm => ?_⟩
      rw [unionMembers_eq hext hr] at hm
      rw [(closed_of_mem_unionMembers hr hm).node_eq hext]
      exact h.2 m hm
  | nullishEquality | truthy | inProperty _ => trivial
  | literalEquality _ | discriminant _ _ | predicate _ => exact h.elim

end later

/-- From the store on, the computation gives `u` and adds no types. -/
def Recalls (s : Store) (step : Reporting TypeId) (u : TypeId) : Prop :=
  ∀ s', s.Extends s' → ∀ ds, s'.Alike (step ds s').2 ∧ (step ds s').1.1 = u

section runs

variable {setting : Setting} {s s₁ : Store} {t r : TypeId} {e : Evaluator} {guard : TypeGuard}
  {branch : Branch}

theorem Recalls.reporting {step : Reporting TypeId} {s' : Store} (h : Recalls s step r)
    (hext : s.Extends s') :
    reporting.Holds s' step fun s'' u => u = r ∧ s.Extends s'' := by
  intro ds hs'
  obtain ⟨halike, hu⟩ := h s' hext ds
  exact ⟨halike.toExtends, halike.formed hs', hu, hext.trans halike.toExtends⟩

/-- Narrowing a type that evaluates to `r` gives a part of the members of `r` that keeps what
remains of them in the branch. -/
theorem reporting_narrow_part (hr : s₁.Closed AnyName r) (hform : InUnionForm s₁ r)
    (hguard : Rejoins s₁ r guard)
    (hresolve : reporting.Holds s (resolve setting t) fun s' u => u = r ∧ s₁.Extends s') :
    reporting.Holds s (narrow setting t guard branch) fun s' y => s₁.Extends s' ∧
      Part s' (s₁.unionMembers r) ((s₁.unionMembers r).flatMap (remains s₁ guard branch)) y := by
  refine reporting.bind hresolve fun s₂ u _ hs₂ ⟨hu, hext⟩ => ?_
  subst hu
  have hr₂ := hext.closed hr
  have hform₂ := (InUnionForm.iff_of_extends hext hr).mpr hform
  have hguard₂ := hguard.mono hext hr
  have hflat := hform₂.isFlat
  have hremains : (s₂.unionMembers u).flatMap (remains s₂ guard branch) =
      (s₁.unionMembers u).flatMap (remains s₁ guard branch) := by
    rw [unionMembers_eq hext hr]
    exact List.flatMap_congr fun m hm => remains_eq hext (closed_of_mem_unionMembers hr hm)
  have hlater : ∀ {step : Reporting TypeId}, reporting.Holds s₂ step (Part · (s₂.unionMembers u)
      ((s₂.unionMembers u).flatMap (remains s₂ guard branch))) →
      reporting.Holds s₂ step fun s' y => s₁.Extends s' ∧
        Part s' (s₁.unionMembers u) ((s₁.unionMembers u).flatMap (remains s₁ guard branch)) y := by
    intro step hstep
    refine reporting.mono hstep fun s₃ y h₃ _ hy => ⟨hext.trans h₃, ?_⟩
    rw [hremains, unionMembers_eq hext hr] at hy
    exact hy
  cases guard with
  | typeof kind =>
      exact hlater (reporting_lift (building_byTypeof hs₂ hr₂ hflat kind hform₂ hguard₂))
  | nullishEquality => exact hlater (reporting_lift (building_byNullish hs₂ hr₂ hflat))
  | truthy => exact hlater (reporting_lift (building_byTruth hs₂ hr₂ hflat))
  | inProperty name => exact hlater (reporting_lift (building_byPresence hr₂ hflat name))
  | literalEquality _ | discriminant _ _ | predicate _ => exact hguard.elim

/-- Parts that keep what remains of the members in either branch are united to the whole. -/
theorem union_parts (hs : s.Formed) (hext : s₁.Extends s) (hr : s₁.Closed AnyName r)
    (hform : InUnionForm s₁ r) (hguard : Rejoins s₁ r guard) {y z : TypeId}
    (hy : Part s (s₁.unionMembers r) ((s₁.unionMembers r).flatMap (remains s₁ guard branch)) y)
    (hz : Part s (s₁.unionMembers r)
      ((s₁.unionMembers r).flatMap (remains s₁ guard branch.other)) z) :
    Build.union [y, z] s = (r, s) := by
  have hr' := hext.closed hr
  have hform' := (InUnionForm.iff_of_extends hext hr).mpr hform
  have hleaves : s.unionLeaves r = s₁.unionMembers r := by
    rw [hform'.isFlat.mem_unionLeaves, unionMembers_eq hext hr]
  refine union_eq_of_absorbs hs hr'.known hform' (by simp [hy.closed.known, hz.closed.known])
    (fun l hl => ?_) fun m hm => ?_
  · rw [hleaves]
    simp only [List.flatMap_cons, List.flatMap_nil, List.append_nil, List.mem_append] at hl
    exact hl.elim (hy.within l) (hz.within l)
  · rw [hleaves] at hm
    refine absorbs_of_remains hs hguard fun b l hl => ?_
    have hl : ∀ {b' : Branch}, b = b' →
        l ∈ (s₁.unionMembers r).flatMap (remains s₁ guard b') := by
      rintro _ rfl
      exact List.mem_flatMap.mpr ⟨m, hm, hl⟩
    rcases b.eq_or_eq_other branch with h | h
    · exact (hy.keeps l (hl h)).trans hs fun u hu => .member (by simp [hu])
    · exact (hz.keeps l (hl h)).trans hs fun u hu => .member (by simp [hu])

variable (henv : setting.environment.Agrees AnyName s setting.environment) (ht : s.Closed AnyName t)
  (heval : Eval.evaluate setting t (.fresh setting.options 0 none) s = ((.ok r, e), s₁))

include henv ht heval

/-- What evaluating a type does is done when narrowing resolves it. -/
theorem reporting_resolve_evaluated :
    reporting.Holds s (resolve setting t) fun s' u => u = r ∧ s₁ = s' ∧ s'.Closed AnyName r := by
  have hstart : Same (.free AnyName) s (Evaluator.fresh setting.options 0 none)
      (Evaluator.fresh setting.options 0 none) :=
    .fresh setting.options 0 False.elim
  have hrun : Follows (M := Build) (.free AnyName) s
      (Eval.evaluate setting t (.fresh setting.options 0 none))
      (Eval.evaluate setting t (.fresh setting.options 0 none)) :=
    follows_evalEvaluate (L := .free AnyName) setting.options (.of_agrees henv) ht _ _ hstart
  unfold resolve
  split
  · rename_i hfixed
    have hsame : Eval.evaluate setting t (.fresh setting.options 0 none) s = ((.ok t, _), s) :=
      Eval.evaluateAt_fixed hfixed _ _ s
    rw [heval] at hsame
    cases hsame
    exact reporting.pure ⟨rfl, rfl, ht⟩
  · have hevaluated : building.Holds s (Eval.evaluate setting t (.fresh setting.options 0 none))
        fun s' p => p.1 = .ok r ∧ s₁ = s' ∧ s'.Closed AnyName r := by
      intro hs
      have hrun := hrun hs
      have hsame := (hrun.beside s (.refl s)).2.1
      rw [heval] at hsame
      have hgrows := hrun.grows
      have hformed := hrun.formed
      rw [heval] at hgrows hformed ⊢
      cases hsame with
      | ok h => exact ⟨hgrows, hformed, rfl, rfl, h.2⟩
    refine reporting.bind (reporting_lift hevaluated) ?_
    rintro s₂ ⟨_, e'⟩ _ _ ⟨rfl, hs₂, hr⟩
    refine reporting.bind (reporting_forM (fun d _ => reporting_report d) e'.diagnostics) ?_
    rintro s₃ _ _ _ rfl
    exact reporting.pure ⟨rfl, hs₂, hr⟩

theorem formed_evaluated (hs : s.Formed) :
    s.Extends s₁ ∧ s₁.Formed ∧ s₁.Closed AnyName r := by
  obtain ⟨hgrows, hformed, -, hs₁, hr⟩ := reporting_resolve_evaluated henv ht heval #[] hs
  rw [hs₁]
  exact ⟨hgrows, hformed, hr⟩

/-- What a type has been evaluated to is recalled when it is resolved in a later store. -/
theorem recalls_resolve (hs : s.Formed) : Recalls s₁ (resolve setting t) r := by
  intro s' hext ds
  obtain ⟨-, -, hu, hs₁, -⟩ := reporting_resolve_evaluated henv ht heval ds hs
  have hfollows : Follows (.free AnyName) s (resolve setting t) (resolve setting t) :=
    follows_narrowingResolve (.of_agrees henv) ht
  rw [hs₁] at hext
  obtain ⟨halike, hsame⟩ := (hfollows ds ds (fun _ => rfl) hs).later s' hext
  exact ⟨halike, hsame.1.1.trans hu⟩

end runs

/-- Narrowing a type in both branches of a condition and joining the results gives the type again:
what it evaluates to, if that is normal. -/
theorem join_narrow_branches {setting : Setting} {s s₁ : Store} {t r : TypeId} {e : Evaluator}
    {guard : TypeGuard} {site : Option SourceTag} {reported : Array Diagnostic} (hs : s.Formed)
    (henv : setting.environment.Agrees AnyName s setting.environment) (ht : t.index < s.size)
    (heval : Eval.evaluate setting t (.fresh setting.options 0 none) s = ((.ok r, e), s₁))
    (hnormal : (Reporting.normalize site r reported s₁).1.1 = r) (hguard : Rejoins s₁ r guard)
    (branch : Branch) (ds : Array Diagnostic) :
    ((do
      let first ← narrow setting t guard branch
      let second ← narrow setting t guard branch.other
      join first second : Reporting TypeId) ds s).1.1 = r := by
  have hclosed : s.Closed AnyName t := hs.closed_of_known ht
  have hresolve := reporting_resolve_evaluated henv hclosed heval
  obtain ⟨-, hs₁, hr⟩ := formed_evaluated henv hclosed heval hs
  have hform := inUnionForm_of_normalize hs₁ hr.known hnormal
  have hjoined : reporting.Holds s (do
      let first ← narrow setting t guard branch
      let second ← narrow setting t guard branch.other
      join first second : Reporting TypeId) fun _ u => u = r := by
    have hfirst : reporting.Holds s (resolve setting t) fun s' u => u = r ∧ s₁.Extends s' :=
      reporting.mono hresolve fun s' u _ _ h => ⟨h.1, h.2.1 ▸ .refl _⟩
    refine reporting.bind (reporting_narrow_part hr hform hguard hfirst) ?_
    rintro s₂ y _ _ ⟨hext, hy⟩
    have hsecond := (recalls_resolve henv hclosed heval hs).reporting hext
    refine reporting.bind (reporting_narrow_part hr hform hguard hsecond) ?_
    rintro s₃ z h₃ hs₃ ⟨hext', hz⟩
    refine reporting_lift fun _ => ?_
    rw [join, union_parts hs₃ hext' hr hform hguard (hy.mono h₃) hz]
    exact ⟨.refl s₃, hs₃, rfl⟩
  exact (hjoined ds hs).2.2

/-- A reference to `type A = null | boolean | string` and the body of `A`. -/
def nullableSample : Build (TypeId × TypeId) := do
  let body ← Build.union [.null, .boolean, .string]
  let named ← Build.reference "A" []
  return (named, body)

/-- Where `boolean` is split and where `string` is told apart, the branches join to the body. -/
theorem join_narrow_branches_nullable :
    let made := nullableSample .empty
    let setting : Setting := ⟨⟨[⟨"A", [], made.1.2, none⟩]⟩, .standard⟩
    ∀ guard ∈ [TypeGuard.truthy, .typeof .string],
      ((do
        let first ← narrow setting made.1.1 guard .whenTrue
        let second ← narrow setting made.1.1 guard .whenFalse
        join first second : Reporting TypeId) #[] made.2).1.1 = made.1.2 := by
  intro made setting guard hmem
  have hs : made.2.Formed := by
    have hunion : (Build.union [.null, .boolean, .string] .empty).2.Formed :=
      (building_inUnionForm (by simp only [List.forall_mem_cons]; decide) formed_empty).2.1
    exact hunion.intern (n := .reference "A" []) (by simp [Node.components])
  have hmade : made.1 = (⟨13⟩, ⟨12⟩) ∧ made.2.size = 14 := by
    subst made
    cbv
  have henv : setting.environment.Agrees AnyName made.2 setting.environment := by
    have hbody : made.1.2.index < made.2.size := by simp [hmade]
    have halias : ∀ name a, setting.environment.get? name = some a →
        a = ⟨"A", [], made.1.2, none⟩ := fun name a ha =>
      List.mem_singleton.mp (List.mem_of_find?_eq_some ha)
    refine ⟨fun _ _ => rfl, fun name a _ ha => ?_, fun name a _ ha p hp => ?_⟩
    · exact halias name a ha ▸ hs.closed_of_known hbody
    · simp [halias name a ha] at hp
  have hevaluated :
      let run := Eval.evaluate setting made.1.1 (.fresh setting.options 0 none) made.2
      run.1.1 = .ok made.1.2 ∧ (Reporting.normalize none made.1.2 #[] run.2).1.1 = made.1.2 ∧
        (run.2.unionMembers made.1.2).all fun m => !(run.2.node m).hidesKind := by
    subst setting made
    cbv
  obtain ⟨hvalue, hnormal, hmembers⟩ := hevaluated
  rcases hrun : Eval.evaluate setting made.1.1 (.fresh setting.options 0 none) made.2 with
    ⟨⟨v, e⟩, s₁⟩
  rw [hrun] at hvalue hnormal hmembers
  subst hvalue
  have hguard : Rejoins s₁ made.1.2 guard := by
    rcases List.mem_pair.mp hmem with rfl | rfl
    · trivial
    · exact ⟨by rw [hmade.1]; decide, by simpa using hmembers⟩
  exact join_narrow_branches hs henv (by simp [hmade]) hrun hnormal hguard .whenTrue #[]

end Narrowing

end TypeResolution
