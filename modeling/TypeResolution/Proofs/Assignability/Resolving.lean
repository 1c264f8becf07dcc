import Mathlib.Logic.Function.Iterate
import TypeResolution.Proofs.Assignability.Rules
import TypeResolution.Proofs.Store.Formed

/-!
What evaluation does to assignability. A comparison evaluates both of its types until evaluation
leaves them as they are, so it only matters what they come to. The target `never` is the exception:
it is refused before the source is looked at, and the types that come to `never` are not.
-/

namespace TypeResolution

namespace Assignability

open Store

variable {Γ : Context} {R : Relation} {a a' b b' t : TypeId}

/-- A relation whose pairs obey the rules up to pairs that are known to be assignable. -/
theorem assignable_of_relation
    (h : ∀ x y, R x y → x = y ∨ Unfolds Γ (fun u v => R u v ∨ Assignable Γ u v) x y)
    (hab : R a b) : Assignable Γ a b := by
  refine ⟨fun u v => R u v ∨ Assignable Γ u v, .inl hab, ?_⟩
  rintro x y (hxy | hxy)
  · exact h x y hxy
  · exact (Assignable.consistent x y hxy).imp_right (Unfolds.mono fun _ _ => .inr)

theorem assignable_of_unfolds (h : Unfolds Γ (Assignable Γ) a b) : Assignable Γ a b := by
  apply assignable_of_relation (R := fun x y => x = a ∧ y = b) _ ⟨rfl, rfl⟩
  rintro x y ⟨rfl, rfl⟩
  exact .inr (h.mono fun _ _ => .inr)

theorem assignable_refl (a : TypeId) : Assignable Γ a a :=
  ⟨Eq, rfl, fun _ _ h => .inl h⟩

theorem unfolds_of_cases (hb : b ≠ .never)
    (hresolved : ¬(Γ.resolved a = a ∧ Γ.resolved b = b) → R (Γ.resolved a) (Γ.resolved b))
    (hfits : Γ.resolved a = a → Γ.resolved b = b → Fits Γ R a b (Γ.store.node a) (Γ.store.node b)) :
    Unfolds Γ R a b := by
  apply Unfolds.compare hb
  unfold Compares
  split
  · rename_i hsame
    exact hfits hsame.1 hsame.2
  · rename_i hdiffer
    exact hresolved hdiffer

theorem Assignable.compares (h : Assignable Γ a b) (hne : a ≠ b)
    (ha : a ∉ [TypeId.never, .error, .any]) (hb : b ∉ [TypeId.any, .unknown, .error]) :
    Compares Γ (Assignable Γ) a b := by
  simp only [List.mem_cons, List.not_mem_nil, or_false, not_or] at ha hb
  cases (Assignable.consistent a b h).resolve_left hne with
  | top htop => exact absurd htop (by simp [hb])
  | bottom hbottom => exact absurd hbottom (by simp [ha])
  | any _ hany => exact absurd hany ha.2.2
  | compare _ hc => exact hc

/-- Two types that evaluation leaves as they are and that only their structure relates. -/
theorem Assignable.fits (h : Assignable Γ a b) (hne : a ≠ b)
    (ha : a ∉ [TypeId.never, .error, .any]) (hb : b ∉ [TypeId.any, .unknown, .error])
    (hra : Γ.resolved a = a) (hrb : Γ.resolved b = b) :
    Fits Γ (Assignable Γ) a b (Γ.store.node a) (Γ.store.node b) := by
  have hc := h.compares hne ha hb
  unfold Compares at hc
  rwa [if_pos ⟨hra, hrb⟩] at hc

theorem assignable_of_fits (hra : Γ.resolved a = a) (hrb : Γ.resolved b = b) (hne : b ≠ .never)
    (h : Fits Γ (Assignable Γ) a b (Γ.store.node a) (Γ.store.node b)) : Assignable Γ a b :=
  assignable_of_unfolds (unfolds_of_cases hne (fun hdiffer => absurd ⟨hra, hrb⟩ hdiffer)
    fun _ _ => h)

/-- Two types of which at least one is evaluated are compared as what they come to. -/
theorem assignable_resolved_iff (hne : a ≠ b) (ha : a ∉ [TypeId.never, .error, .any])
    (hb : b ∉ [TypeId.any, .unknown, .error, .never])
    (hdiffer : ¬(Γ.resolved a = a ∧ Γ.resolved b = b)) :
    Assignable Γ a b ↔ Assignable Γ (Γ.resolved a) (Γ.resolved b) := by
  simp only [List.mem_cons, List.not_mem_nil, or_false, not_or] at hb
  constructor
  · intro h
    have hc := h.compares hne ha (by simp [hb])
    unfold Compares at hc
    rwa [if_neg hdiffer] at hc
  · intro h
    exact assignable_of_unfolds (unfolds_of_cases hb.2.2.2 (fun _ => h)
      fun hra hrb => absurd ⟨hra, hrb⟩ hdiffer)

theorem eq_of_assignable_never (h : Assignable Γ a .never) : a = .never ∨ a = .error := by
  rcases Assignable.consistent a .never h with rfl | hu
  · exact .inl rfl
  cases hu with
  | top htop => simp [TypeId.never, TypeId.any, TypeId.unknown, TypeId.error] at htop
  | bottom hbottom => exact hbottom
  | any hne _ => exact absurd rfl hne
  | compare hne _ => exact absurd rfl hne

theorem resolved_of_plain (h : (Γ.store.node t).isMeta = false) : Γ.resolved t = t :=
  if_neg (by simp [h])

theorem isMeta_of_resolved_ne (h : Γ.resolved t ≠ t) : (Γ.store.node t).isMeta := by
  by_contra hplain
  exact h (resolved_of_plain (by simpa using hplain))

theorem isMeta_of_isFixed {s : Store} (hs : s.Formed) (ht : t.isFixed) :
    (s.node t).isMeta = false := by
  rcases hs.node_of_isFixed ht with hn | ⟨k, hn⟩ | ⟨b, hn⟩ <;> rw [hn] <;> rfl

/-- A type that evaluation, however often repeated, does not turn into `never`. -/
def Proper (Γ : Context) (t : TypeId) : Prop := ∀ n, Γ.resolved^[n] t ≠ .never

/-- Two types that evaluation, repeated, turns into the same type. -/
def Converge (Γ : Context) (a b : TypeId) : Prop := ∃ i j, Γ.resolved^[i] a = Γ.resolved^[j] b

theorem Converge.refl (a : TypeId) : Converge Γ a a := ⟨0, 0, rfl⟩

theorem Converge.symm (h : Converge Γ a b) : Converge Γ b a := by
  obtain ⟨i, j, hij⟩ := h
  exact ⟨j, i, hij.symm⟩

theorem Converge.resolved_left (h : Converge Γ a b) : Converge Γ (Γ.resolved a) b := by
  obtain ⟨i, j, hij⟩ := h
  refine ⟨i, j + 1, ?_⟩
  rw [← Function.iterate_succ_apply, Function.iterate_succ_apply', hij,
    ← Function.iterate_succ_apply' Γ.resolved]

theorem iterate_resolved_of_fixed (h : Γ.resolved t = t) (n : Nat) : Γ.resolved^[n] t = t :=
  Function.iterate_fixed h n

/-- A type that evaluation leaves as it is comes late in the evaluation of what converges to it. -/
theorem Converge.eq_iterate (h : Converge Γ a b) (ha : Γ.resolved a = a) :
    ∃ n, ∀ m, n ≤ m → Γ.resolved^[m] b = a := by
  obtain ⟨i, j, hij⟩ := h
  rw [iterate_resolved_of_fixed ha] at hij
  refine ⟨j, fun m hm => ?_⟩
  obtain ⟨k, rfl⟩ := Nat.exists_eq_add_of_le' hm
  rw [Function.iterate_add_apply, ← hij, iterate_resolved_of_fixed ha]

theorem Proper.ne_never (h : Proper Γ t) : t ≠ .never := h 0

theorem Proper.resolved (h : Proper Γ t) : Proper Γ (Γ.resolved t) := by
  intro n
  rw [← Function.iterate_succ_apply]
  exact h (n + 1)

theorem proper_of_fixed (h : Γ.resolved t = t) (hne : t ≠ .never) : Proper Γ t := by
  intro n
  rwa [iterate_resolved_of_fixed h]

section formed

variable (hΓ : Γ.store.Formed)

include hΓ

theorem resolved_of_isFixed (ht : t.isFixed) : Γ.resolved t = t :=
  resolved_of_plain (isMeta_of_isFixed hΓ ht)

theorem resolved_of_top (h : t = .any ∨ t = .unknown ∨ t = .error) : Γ.resolved t = t := by
  rcases h with rfl | rfl | rfl <;> exact resolved_of_isFixed hΓ rfl

theorem Proper.congr (h : Proper Γ a) (hab : Converge Γ a b) : Proper Γ b := by
  intro n hn
  obtain ⟨i, j, hij⟩ := hab
  have hnever : Γ.resolved^[n + j] b = .never := by
    rw [Nat.add_comm, Function.iterate_add_apply, hn,
      iterate_resolved_of_fixed (resolved_of_isFixed hΓ rfl)]
  rw [Function.iterate_add_apply, ← hij, ← Function.iterate_add_apply] at hnever
  exact h (n + i) hnever

theorem Assignable.resolved (h : Assignable Γ a b) (hb : Γ.resolved b ≠ .never) :
    Assignable Γ (Γ.resolved a) (Γ.resolved b) := by
  rcases Assignable.consistent a b h with rfl | hu
  · exact assignable_refl _
  cases hu with
  | top htop =>
      rw [resolved_of_top hΓ htop]
      exact assignable_of_unfolds (.top htop)
  | bottom hbottom =>
      have hra : Γ.resolved a = a := by
        rcases hbottom with rfl | rfl <;> exact resolved_of_isFixed hΓ rfl
      rw [hra]
      exact assignable_of_unfolds (.bottom hbottom)
  | any _ hany =>
      rw [hany, resolved_of_isFixed hΓ rfl]
      exact assignable_of_unfolds (.any hb rfl)
  | compare hne hc =>
      unfold Compares at hc
      split at hc
      · rename_i hsame
        rwa [hsame.1, hsame.2]
      · exact hc

theorem Assignable.iterate (h : Assignable Γ a b) (hb : Proper Γ b) (n : Nat) :
    Assignable Γ (Γ.resolved^[n] a) (Γ.resolved^[n] b) := by
  induction n generalizing a b with
  | zero => exact h
  | succ n ih => exact ih (h.resolved hΓ (hb 1)) hb.resolved

/-- Assignability is a matter of what the types come to. -/
theorem Assignable.congr (h : Assignable Γ a b) (hb : Proper Γ b) (ha' : Converge Γ a' a)
    (hb' : Converge Γ b' b) : Assignable Γ a' b' := by
  apply assignable_of_relation (R := fun x y => Converge Γ x a ∧ Converge Γ y b) _ ⟨ha', hb'⟩
  rintro x y ⟨hx, hy⟩
  by_cases hsame : Γ.resolved x = x ∧ Γ.resolved y = y
  · obtain ⟨i, hi⟩ := hx.eq_iterate hsame.1
    obtain ⟨j, hj⟩ := hy.eq_iterate hsame.2
    have hxy := h.iterate hΓ hb (i + j)
    rw [hi _ (Nat.le_add_right i j), hj _ (Nat.le_add_left j i)] at hxy
    exact (Assignable.consistent x y hxy).imp_right (Unfolds.mono fun _ _ => .inr)
  · have hne : y ≠ .never := (hb.congr hΓ hy.symm).ne_never
    exact .inr (unfolds_of_cases hne (fun _ => .inl ⟨hx.resolved_left, hy.resolved_left⟩)
      fun hrx hry => absurd ⟨hrx, hry⟩ hsame)

/-- Nothing but `never`, the error type and `any` is assignable to what comes to `never`. -/
theorem Assignable.proper (h : Assignable Γ a b) (hra : Γ.resolved a = a)
    (ha : a ∉ [TypeId.never, .error, .any]) : Proper Γ b := by
  have hne : ∀ y, Assignable Γ a y → y ≠ .never := by
    rintro _ hy rfl
    rcases eq_of_assignable_never hy with heq | heq <;> simp [heq] at ha
  have hstep : ∀ y, Assignable Γ a y → Assignable Γ a (Γ.resolved y) := by
    intro y hy
    by_cases heq : a = y
    · rw [← heq, hra]
      exact assignable_refl a
    by_cases htop : y = .any ∨ y = .unknown ∨ y = .error
    · rwa [resolved_of_top hΓ htop]
    have hc := hy.compares heq ha (by simpa using htop)
    unfold Compares at hc
    split at hc
    · rename_i hsame
      rwa [hsame.2]
    · rwa [hra] at hc
  have hiterate : ∀ n, Assignable Γ a (Γ.resolved^[n] b) := by
    intro n
    induction n with
    | zero => exact h
    | succ n ih =>
        rw [Function.iterate_succ_apply']
        exact hstep _ ih
  exact fun n => hne _ (hiterate n)

end formed

end Assignability

end TypeResolution
