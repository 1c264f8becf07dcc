import TypeResolution.Proofs.Assignability.Verdicts

/-!
Looking for excess properties only refuses more. This is so for the comparison itself: when the same
evaluations stand behind two checkers, the one that allows excess properties takes whatever the
other one takes. Evaluation looks at the flag as well, since it decides conditional types by
assignability, and a type that it makes may fit less when its condition was refused.
-/

namespace TypeResolution

namespace Assignability

open Store Replay

/-- Two contexts that differ in the excess properties which the first may allow. -/
structure Context.Relaxes (Γ' Γ : Context) : Prop where
  store : Γ'.store = Γ.store
  resolved : ∀ t, Γ'.resolved t = Γ.resolved t
  excess : Γ'.excess → Γ.excess

section rules

variable {Γ Γ' : Context} {R : Relation} {a b : TypeId} (h : Γ'.Relaxes Γ)

include h

theorem FitsEmptyObject.relax (he : FitsEmptyObject Γ a b) : FitsEmptyObject Γ' a b := by
  unfold FitsEmptyObject at he ⊢
  rwa [h.store]

theorem ObjectFits.relax {o p : ObjectShape} (ho : ObjectFits Γ R o p) : ObjectFits Γ' R o p where
  fields := ho.fields
  index := ho.index
  excess hindex hexcess := ho.excess hindex (h.excess hexcess)

theorem ShapeFits.relax {m n : Node} (hs : ShapeFits Γ R a b m n) : ShapeFits Γ' R a b m n := by
  cases hs with
  | literal hv => exact .literal hv
  | text ht => exact .text (by rwa [h.store])
  | literalInEmpty he => exact .literalInEmpty (he.relax h)
  | undefined hb => exact .undefined hb
  | intrinsicInEmpty he => exact .intrinsicInEmpty (he.relax h)
  | template hb => exact .template hb
  | constraint hc hne hr => exact .constraint hc hne hr
  | object ho => exact .object (ho.relax h)
  | function hf => exact .function hf
  | functionInEmpty he => exact .functionInEmpty (he.relax h)
  | array hr => exact .array hr
  | arrayInEmpty he => exact .arrayInEmpty (he.relax h)

theorem Fits.relax {m n : Node} (hf : Fits Γ R a b m n) : Fits Γ' R a b m n := by
  revert hf
  fun_cases Fits Γ' R a b m n with
  | case1 n members => exact id
  | case2 members => exact id
  | case3 m members hunion hboolean =>
      rw [Fits.eq_3 _ _ _ _ _ _ hunion hboolean]
      exact id
  | case4 m members hunion =>
      rw [Fits.eq_4 _ _ _ _ _ _ hunion]
      exact id
  | case5 n members hunion hmeet =>
      rw [Fits.eq_5 _ _ _ _ _ _ hunion hmeet]
      exact id
  -- Only the comparison of two shapes looks at what the contexts differ in.
  | case6 m n h₁ h₂ h₃ h₄ h₅ =>
      rw [Fits.eq_6 _ _ _ _ _ _ h₁ h₅ h₃ h₄ h₂]
      exact ShapeFits.relax h

theorem Compares.relax (hc : Compares Γ R a b) : Compares Γ' R a b := by
  unfold Compares at hc ⊢
  rw [h.resolved a, h.resolved b, h.store]
  split
  · rename_i hsame
    rw [if_pos hsame] at hc
    exact hc.relax h
  · rename_i hsame
    rwa [if_neg hsame] at hc

theorem Unfolds.relax (hu : Unfolds Γ R a b) : Unfolds Γ' R a b := by
  cases hu with
  | top hb => exact .top hb
  | bottom ha => exact .bottom ha
  | any hb ha => exact .any hb ha
  | compare hb hc => exact .compare hb (hc.relax h)

theorem Assignable.relax (hab : Assignable Γ a b) : Assignable Γ' a b := by
  obtain ⟨R, hR, hconsistent⟩ := hab
  exact ⟨R, hR, fun x y hxy => (hconsistent x y hxy).imp_right (Unfolds.relax h)⟩

end rules

/-- A checker that evaluates by a setting, and looks for excess properties or not, starts somewhere
between the stores `s` and `F`, hits no limit and answers `verdict`. -/
def Answers (setting : Setting) (strict : Bool) (s F : Store) (a b : TypeId) (verdict : Bool) :
    Prop :=
  ∃ s₀ c s₁, s.Extends s₀ ∧ s₀.Formed ∧
    Check.isAssignable (setting.nested 0) a b
      ((Checker.fresh setting.options).setExcessPropertyCheck strict) s₀ = ((verdict, c), s₁) ∧
    (∀ d ∈ c.diagnostics, d.kind ≠ .evaluationDepthExceeded) ∧ s₁.Extends F

variable {setting setting' : Setting} {strict strict' : Bool} {s F : Store} {a b : TypeId}
  {verdict : Bool}

theorem ready_setExcess {Γ : Context} {options : Options} (strict : Bool)
    (hexcess : Γ.excess = strict) :
    Ready Γ [] options.maxSubtypeDepth.toNat
      ((Checker.fresh options).setExcessPropertyCheck strict) := by
  have hfresh : Ready ⟨Γ.store, Γ.nested, options.excessPropertyCheck⟩ []
      options.maxSubtypeDepth.toNat (.fresh options) := ready_fresh rfl
  unfold Checker.setExcessPropertyCheck
  split
  · rename_i hsame
    exact ready_fresh (hexcess.trans hsame.symm)
  · have hnone : ∀ a b : TypeId, ¬(∅ : Std.HashSet (TypeId × TypeId)).contains (a, b) := by simp
    exact ⟨hfresh.active, hfresh.room, hfresh.base, hexcess.symm,
      fun _ a b h => absurd h (hnone a b), nofun⟩

theorem Answers.iff (henv : setting.environment.Known s) (ha : a.index < s.size)
    (hb : b.index < s.size) (h : Answers setting strict s F a b verdict) :
    verdict = true ↔ Assignable ⟨F, setting.nested 0, strict⟩ a b := by
  obtain ⟨s₀, c, s₁, hs₀, hformed, hrun, hlimit, hF⟩ := h
  have hready : Ready ⟨F, setting.nested 0, strict⟩ [] setting.options.maxSubtypeDepth.toNat
      ((Checker.fresh setting.options).setExcessPropertyCheck strict) := ready_setExcess strict rfl
  have hend := ends_of_ready hformed (resolves_nested hformed (henv.mono hs₀) 0)
    (hformed.closed_of_known (Nat.lt_of_lt_of_le ha hs₀.size_le))
    (hformed.closed_of_known (Nat.lt_of_lt_of_le hb hs₀.size_le)) hready
  rw [hrun] at hend
  obtain ⟨hlo, hhi⟩ := hend.post hF
  exact ⟨fun h => under_nil.mp ((hhi h).resolve_right List.not_mem_nil),
    hlo ((hend.ready hF).not_reported hlimit)⟩

/-- When evaluation gives the same types, a checker that allows excess properties takes what one
that looks for them takes. -/
theorem excess_only_refuses (henv : setting.environment.Known s)
    (henv' : setting'.environment.Known s) (ha : a.index < s.size) (hb : b.index < s.size)
    (heval : ∀ t, Context.resolved ⟨F, setting'.nested 0, false⟩ t =
      Context.resolved ⟨F, setting.nested 0, true⟩ t)
    (hstrict : Answers setting true s F a b true) (hlax : Answers setting' false s F a b verdict) :
    verdict = true := by
  apply (hlax.iff henv' ha hb).mpr
  have hrelaxes : Context.Relaxes ⟨F, setting'.nested 0, false⟩ ⟨F, setting.nested 0, true⟩ :=
    ⟨rfl, heval, fun _ => rfl⟩
  exact ((hstrict.iff henv ha hb).mp rfl).relax hrelaxes

/-- Turning the search for excess properties off does not change how a checker evaluates. -/
theorem excess_of_checker_only_refuses (henv : setting.environment.Known s)
    (ha : a.index < s.size) (hb : b.index < s.size) (hstrict : Answers setting true s F a b true)
    (hlax : Answers setting false s F a b verdict) : verdict = true :=
  excess_only_refuses henv henv ha hb (fun _ => rfl) hstrict hlax

theorem excess_only_refuses_of_plain (henv : setting.environment.Known s)
    (henv' : setting'.environment.Known s) (ha : a.index < s.size) (hb : b.index < s.size)
    (hplain : ∀ t, (F.node t).isMeta = false)
    (hstrict : Answers setting true s F a b true) (hlax : Answers setting' false s F a b verdict) :
    verdict = true := by
  apply excess_only_refuses henv henv' ha hb _ hstrict hlax
  intro t
  unfold Context.resolved
  rw [if_neg (by simp [hplain t]), if_neg (by simp [hplain t])]

end Assignability

end TypeResolution
