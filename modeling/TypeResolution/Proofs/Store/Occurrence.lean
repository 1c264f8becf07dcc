import TypeResolution.Proofs.Store.Free
import TypeResolution.Proofs.Tidy.Reachable

/-!
Where a parameter occurs free, and the walk that looks for it. The walk passes a type once while no
name is bound, and each time below a binder; what it has passed without finding anything has nothing
to find, unless it is still being walked. A parameter stands for its name only: its constraint and
its default belong to the place that declares it.
-/

namespace TypeResolution

/-- The components of a node in which the name means what it means around the node. -/
def Node.exposed (name : String) : Node → List TypeId
  | .param _ => []
  | .conditional c =>
      c.check :: c.whenFalse :: if name ∈ c.infer then [] else [c.pattern, c.whenTrue]
  | .mapped m =>
      m.source ::
        if name = m.keyParam then [] else m.keyFilter.toList ++ m.template :: m.nameType.toList
  | n => n.components

theorem Node.mem_exposed_iff {n : Node} {name : String} {c : TypeId} :
    c ∈ n.exposed name ↔ ∃ names, (names, c) ∈ n.scopes ∧ name ∉ names := by
  cases n with
  | param info => simp [exposed, scopes]
  | conditional d =>
      by_cases hname : name ∈ d.infer <;> simp [exposed, scopes, hname, or_and_right, exists_or]
  | mapped m =>
      by_cases hname : name = m.keyParam <;> simp [exposed, scopes, hname, or_and_right, exists_or]
  | _ => simp [exposed, scopes]

namespace Store

/-- The parameter occurs in a type, outside of the scope of any binder of its name. -/
inductive Free (s : Store) (name : String) : TypeId → Prop
  | param {t : TypeId} {info : TypeParam} : s.node t = .param info → info.name = name → Free s name t
  | part {t c : TypeId} : c ∈ (s.node t).exposed name → Free s name c → Free s name t

/-- Components are nested at most so deep, where free parameters are looked for. -/
inductive Shallow (s : Store) : Nat → TypeId → Prop
  | fixed {depth : Nat} {t : TypeId} : t.isFixed → Shallow s depth t
  | node {depth : Nat} {t : TypeId} : (∀ x ∈ (s.node t).scopes, Shallow s depth x.2) →
      Shallow s (depth + 1) t

variable {s s' : Store} {t c : TypeId} {name : String} {bound : List String}

section occurrences

variable {wanted : String → Prop}

theorem hasFree_iff :
    s.HasFree wanted bound t ↔ ∃ name, wanted name ∧ name ∉ bound ∧ s.Free name t := by
  constructor
  · intro h
    induction h with
    | here hn hbound hwanted => exact ⟨_, hwanted, hbound, .param hn rfl⟩
    | within hc _ ih =>
        obtain ⟨name, hwanted, hbound, hfree⟩ := ih
        rw [List.mem_append, not_or] at hbound
        exact ⟨name, hwanted, hbound.2, .part (Node.mem_exposed_iff.mpr ⟨_, hc, hbound.1⟩) hfree⟩
  · rintro ⟨name, hwanted, hbound, hfree⟩
    induction hfree generalizing bound with
    | param hn hname =>
        subst hname
        exact .here hn hbound hwanted
    | part hc _ ih =>
        obtain ⟨names, hc, hnames⟩ := Node.mem_exposed_iff.mp hc
        apply HasFree.within hc
        apply ih
        rw [List.mem_append, not_or]
        exact ⟨hnames, hbound⟩

theorem hasFree_param_iff {info : TypeParam} (hn : s.node t = .param info) :
    s.HasFree wanted bound t ↔ info.name ∉ bound ∧ wanted info.name := by
  constructor
  · intro h
    cases h with
    | here hn' hbound hwanted =>
        cases hn.symm.trans hn'
        exact ⟨hbound, hwanted⟩
    | within hc _ =>
        rw [hn] at hc
        cases hc
  · rintro ⟨hbound, hwanted⟩
    exact .here hn hbound hwanted

theorem hasFree_scopes_iff (hn : ∀ info, s.node t ≠ .param info) :
    s.HasFree wanted bound t ↔
      ∃ x ∈ (s.node t).scopes, s.HasFree wanted (x.1 ++ bound) x.2 := by
  constructor
  · intro h
    cases h with
    | here hparam _ _ => exact absurd hparam (hn _)
    | within hc h => exact ⟨_, hc, h⟩
  · rintro ⟨⟨names, c⟩, hc, h⟩
    exact .within hc h

theorem not_hasFree_of_fixed (hs : s.Formed) (ht : t.isFixed) : ¬s.HasFree wanted bound t := by
  intro h
  apply (Without.fixed hs ht).not_free
  obtain ⟨name, hwanted, -, hfree⟩ := hasFree_iff.mp h
  exact hasFree_iff.mpr ⟨name, hwanted, by simp, hfree⟩

theorem Without.imp {wanted' : String → Prop} (h : s.Without wanted t)
    (himp : ∀ name, wanted' name → wanted name) : s.Without wanted' t := by
  refine ⟨h.closed, fun hfree => h.not_free ?_⟩
  obtain ⟨name, hname, hbound, hfree⟩ := hasFree_iff.mp hfree
  exact hasFree_iff.mpr ⟨name, himp name hname, hbound, hfree⟩

theorem hasFree_name_iff : s.HasFree (· = name) [] t ↔ s.Free name t := by
  simp [hasFree_iff]

end occurrences

namespace Shallow

variable {depth : Nat}

theorem mono (h : s.Extends s') (ht : s.Closed AnyName t) (hshallow : s.Shallow depth t) :
    s'.Shallow depth t := by
  induction hshallow with
  | fixed hfixed => exact .fixed hfixed
  | node _ ih =>
      apply Shallow.node
      rw [h.node_eq _ ht.known]
      exact fun x hx => ih x hx (ht.node.components _ (Node.mem_components_of_mem_scopes hx))

/-- Types are nested no more deeply than there are types below them. -/
theorem of_index_lt (hs : s.Formed) (h : t.index < depth) : s.Shallow depth t := by
  induction depth generalizing t with
  | zero => exact absurd h (Nat.not_lt_zero _)
  | succ depth ih =>
      refine .node fun x hx => ih ?_
      have hlt : x.2.index < t.index :=
        hs.index_lt_of_component (Node.mem_components_of_mem_scopes hx)
      omega

theorem component (h : s.Shallow (depth + 1) t) (hfixed : t.isFixed = false)
    {x : List String × TypeId} (hx : x ∈ (s.node t).scopes) : s.Shallow depth x.2 := by
  cases h with
  | fixed h => simp [h] at hfixed
  | node h => exact h x hx

end Shallow

end Store

namespace Scope

open Store

variable {s : Store} {wanted : String → Bool} {bound : List String} {t : TypeId}
  {depth below above : Nat} {P : Prop}

/-- A walk among the types below an id finds something exactly when there is something, and what it
has passed else has nothing to find. -/
def Finds (s : Store) (wanted : String → Bool) (below : Nat) (walk : Walk Bool) (P : Prop) : Prop :=
  ∀ seen : Std.HashSet TypeId,
    (∀ u ∈ seen, u.index < below → ¬s.HasFree (wanted ·) [] u) →
    ((walk seen).1 = true ↔ P) ∧ ((walk seen).1 = false →
      ∀ u ∈ (walk seen).2, u ∈ seen ∨ ¬s.HasFree (wanted ·) [] u)

theorem Finds.mono {walk : Walk Bool} (h : Finds s wanted below walk P) (hle : below ≤ above) :
    Finds s wanted above walk P :=
  fun seen hseen => h seen fun u hu hlt => hseen u hu (Nat.lt_of_lt_of_le hlt hle)

theorem finds_pure {r : Bool} (h : r = true ↔ P) : Finds s wanted below (pure r) P :=
  fun _ _ => ⟨h, fun _ _ hu => .inl hu⟩

theorem run_ite (first found other : Walk Bool) (seen : Std.HashSet TypeId) :
    (do if ← first then found else other : Walk Bool) seen =
      if (first seen).1 then found (first seen).2 else other (first seen).2 := by
  change (if (first seen).1 then found else other) (first seen).2 = _
  split <;> rfl

theorem anyM_cons {α : Type} (f : α → Walk Bool) (x : α) (l : List α) :
    (x :: l).anyM f = (do if ← f x then pure true else l.anyM f) := by
  rw [List.anyM]
  exact congrArg (f x >>= ·) (funext fun found => by cases found <;> rfl)

theorem finds_anyM {α : Type} {l : List α} {f : α → Walk Bool} {P : α → Prop}
    (h : ∀ x ∈ l, Finds s wanted below (f x) (P x)) :
    Finds s wanted below (l.anyM f) (∃ x ∈ l, P x) := by
  induction l with
  | nil => exact finds_pure (by simp)
  | cons x rest ih =>
      obtain ⟨hx, hrest⟩ := List.forall_mem_cons.mp h
      intro seen hseen
      obtain ⟨hfound, hpassed⟩ := hx seen hseen
      rw [anyM_cons, run_ite, List.exists_mem_cons_iff]
      cases hr : (f x seen).1 with
      | true => simp [hfound.mp hr, pure, StateT.pure]
      | false =>
          have hnot : ¬P x := fun hp => by simp [hfound.mpr hp] at hr
          obtain ⟨hfound', hpassed'⟩ := ih hrest (f x seen).2 fun u hu hlt =>
            (hpassed hr u hu).elim (hseen u · hlt) id
          simp only [Bool.false_eq_true, if_false, hnot, false_or]
          exact ⟨hfound', fun hr' u hu => (hpassed' hr' u hu).elim (hpassed hr u) .inr⟩

/-- A type is looked into unless it has been passed while no name was bound. -/
theorem finds_visit {walk : Walk Bool}
    (hwalk : Finds s wanted t.index walk (s.HasFree (wanted ·) bound t)) :
    Finds s wanted (t.index + 1) (do
      unless ← visit bound t do
        return false
      walk) (s.HasFree (wanted ·) bound t) := by
  intro seen hseen
  have hrun : _ = if (visit bound t seen).1 then walk (visit bound t seen).2
      else (false, (visit bound t seen).2) := run_ite (visit bound t) walk (pure false) seen
  have hlater : ∀ u ∈ seen, u.index < t.index → ¬s.HasFree (wanted ·) [] u :=
    fun u hu hlt => hseen u hu (Nat.lt_succ_of_lt hlt)
  rw [hrun]
  match bound with
  | name :: names => exact hwalk seen hlater
  | [] =>
      by_cases hcontains : t ∈ seen
      · have hvisit : visit [] t seen = (false, seen) := by simp [visit, hcontains]
        rw [hvisit]
        exact ⟨by simp [hseen t hcontains (Nat.lt_succ_self _)], fun _ u hu => .inl hu⟩
      · have hvisit : visit [] t seen = (true, seen.insert t) := by simp [visit, hcontains]
        have hinsert : ∀ {u}, u ∈ seen.insert t → u = t ∨ u ∈ seen := by
          intro u hu
          rcases Std.HashSet.mem_insert.mp hu with heq | hu
          · exact .inl (eq_of_beq heq).symm
          · exact .inr hu
        -- the type is remembered before its components are walked, which have smaller ids
        obtain ⟨hfound, hpassed⟩ := hwalk (seen.insert t) fun u hu hlt =>
          (hinsert hu).elim (fun heq => absurd hlt (heq ▸ Nat.lt_irrefl _)) (hlater u · hlt)
        rw [hvisit]
        refine ⟨hfound, fun hr u hu => ?_⟩
        rcases hpassed hr u hu with hu | hu
        · rcases hinsert hu with rfl | hu
          · exact .inr fun hfree => Bool.false_ne_true (hr.symm.trans (hfound.mpr hfree))
          · exact .inl hu
        · exact .inr hu

theorem finds_walkAt (hs : s.Formed) (ht : s.Shallow depth t) :
    Finds s wanted (t.index + 1) (walkAt s wanted depth bound t)
      (s.HasFree (wanted ·) bound t) := by
  induction depth generalizing t bound with
  | zero =>
      cases ht with
      | fixed hfixed => exact finds_pure (by simp [not_hasFree_of_fixed hs hfixed])
  | succ depth ih =>
      unfold walkAt
      split
      · rename_i hfixed
        exact finds_pure (by simp [not_hasFree_of_fixed hs hfixed])
      · rename_i hfixed
        have hcomponents : ∀ x ∈ (s.node t).scopes, Finds s wanted t.index
            (walkAt s wanted depth (x.1 ++ bound) x.2)
            (s.HasFree (wanted ·) (x.1 ++ bound) x.2) := by
          intro x hx
          apply (ih (ht.component (by simpa using hfixed) hx)).mono
          exact hs.index_lt_of_component (Node.mem_components_of_mem_scopes hx)
        apply finds_visit
        split
        · rename_i info hn
          apply finds_pure
          simp [hasFree_param_iff hn]
        · rename_i hn
          rw [hasFree_scopes_iff hn]
          exact finds_anyM hcomponents

theorem exists_of_anyM {α : Type} {l : List α} {f : α → Walk Bool} {seen : Std.HashSet TypeId}
    (h : (l.anyM f seen).1 = true) : ∃ x ∈ l, ∃ seen', (f x seen').1 = true := by
  induction l generalizing seen with
  | nil => cases h
  | cons x rest ih =>
      rw [anyM_cons, run_ite] at h
      split at h
      · exact ⟨x, by simp, seen, ‹_›⟩
      · obtain ⟨y, hy, hfound⟩ := ih h
        exact ⟨y, by simp [hy], hfound⟩

/-- What a walk finds is there, however deep it goes. -/
theorem hasFree_of_walkAt {seen : Std.HashSet TypeId}
    (h : (walkAt s wanted depth bound t seen).1 = true) : s.HasFree (wanted ·) bound t := by
  induction depth generalizing t bound seen with
  | zero => cases h
  | succ depth ih =>
      unfold walkAt at h
      split at h
      · cases h
      rw [run_ite] at h
      split at h
      · cases hn : s.node t with
        | param info =>
            rw [hn] at h
            have h : (!bound.contains info.name && wanted info.name) = true := h
            exact (hasFree_param_iff hn).mpr (by simpa using h)
        | _ =>
            rw [hn] at h
            obtain ⟨x, hx, seen', hfound⟩ := exists_of_anyM h
            exact .within (hn ▸ hx) (ih hfound)
      · cases h

end Scope

namespace Store

variable {s : Store} {t : TypeId}

theorem hasFree_of_hasFreeParam {wanted : String → Bool} (h : s.hasFreeParam wanted t = true) :
    s.HasFree (wanted ·) [] t :=
  Scope.hasFree_of_walkAt h

/-- A walk that goes deep enough finds what occurs free. -/
theorem walkAt_iff (hs : s.Formed) {depth : Nat} (ht : s.Shallow depth t) (wanted : String → Bool) :
    (Scope.walkAt s wanted depth [] t {}).1 = true ↔
      ∃ name, wanted name = true ∧ s.Free name t := by
  have hwalk : Scope.Finds s wanted (t.index + 1) (Scope.walkAt s wanted depth [] t)
      (s.HasFree (wanted ·) [] t) := Scope.finds_walkAt hs ht
  obtain ⟨hfound, -⟩ := hwalk {} (by simp)
  rw [hfound, hasFree_iff]
  simp

/-- The queries for free parameters find what occurs free. -/
theorem hasFreeParam_iff (hs : s.Formed) (ht : s.Shallow Scope.maxDepth t)
    (wanted : String → Bool) :
    s.hasFreeParam wanted t = true ↔ ∃ name, wanted name = true ∧ s.Free name t :=
  walkAt_iff hs ht wanted

/-- The limit makes no difference to the search for parameters: one that may go deeper finds no more. -/
def Searched (s : Store) (t : TypeId) : Prop :=
  ∀ depth, Scope.maxDepth ≤ depth →
    (Scope.walkAt s (fun _ => true) depth [] t {}).1 = s.containsParams t

namespace Searched

theorem fixed (ht : t.isFixed) : s.Searched t := by
  have hwalk : ∀ depth, (Scope.walkAt s (fun _ => true) (depth + 1) [] t {}).1 = false := by
    intro depth
    rw [Scope.walkAt, if_pos ht]
    rfl
  intro depth hdepth
  cases depth with
  | zero => exact absurd hdepth (by decide)
  | succ depth => exact (hwalk depth).trans (hwalk _).symm

theorem of_index_lt (hs : s.Formed) (ht : t.index < Scope.maxDepth) : s.Searched t := by
  intro depth hdepth
  have hdeep := walkAt_iff hs (.of_index_lt hs (Nat.lt_of_lt_of_le ht hdepth)) fun _ => true
  exact Bool.eq_iff_iff.mpr (hdeep.trans (walkAt_iff hs (.of_index_lt hs ht) fun _ => true).symm)

theorem mono {s' : Store} (hext : s.Extends s') (ht : s.Closed AnyName t) (h : s.Searched t) :
    s'.Searched t := by
  intro depth hdepth
  rw [walkAt_eq hext ht, containsParams_eq hext ht]
  exact h depth hdepth

theorem containsParams_iff (hs : s.Formed) (h : s.Searched t) :
    s.containsParams t = true ↔ ∃ name, s.Free name t := by
  have hdeep : s.Shallow (max Scope.maxDepth (t.index + 1)) t :=
    .of_index_lt hs (Nat.lt_of_lt_of_le (Nat.lt_succ_self _) (Nat.le_max_right _ _))
  rw [← h _ (Nat.le_max_left _ _), walkAt_iff hs hdeep]
  simp

end Searched

theorem referencesParam_iff (hs : s.Formed) (ht : s.Shallow Scope.maxDepth t) (name : String) :
    s.referencesParam name t = true ↔ s.Free name t := by
  simp [referencesParam, hasFreeParam_iff hs ht]

end Store

end TypeResolution
