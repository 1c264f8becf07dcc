import TypeResolution.Proofs.Assignability.Coinductive

/-!
Verdicts of checkers. Checks are made one after the other while the store grows, and all of them are
about the same relation, that of the last store.
-/

namespace TypeResolution

open Store

theorem Environment.Known.mono {env : Environment} {s s' : Store} (h : env.Known s)
    (hs : s.Extends s') : env.Known s' where
  body a ha := Nat.lt_of_lt_of_le (h.body a ha) hs.size_le
  default a ha p hp t ht := Nat.lt_of_lt_of_le (h.default a ha p hp t ht) hs.size_le

/-- What the verdicts of checkers are about, in the store `F`. -/
def Setting.context (setting : Setting) (F : Store) : Assignability.Context :=
  ⟨F, setting.nested 0, setting.options.excessPropertyCheck⟩

namespace Assignability

/-- A checker that starts somewhere between the stores `s` and `F` and hits no limit answers
`verdict`. -/
def Finds (setting : Setting) (s F : Store) (a b : TypeId) (verdict : Bool) : Prop :=
  ∃ s₀ c s₁, s.Extends s₀ ∧ s₀.Formed ∧
    Check.isAssignable (setting.nested 0) a b (.fresh setting.options) s₀ = ((verdict, c), s₁) ∧
    (∀ d ∈ c.diagnostics, d.kind ≠ .evaluationDepthExceeded) ∧ s₁.Extends F

variable {setting : Setting} {s F : Store} {a b : TypeId} {verdict : Bool}

section known

variable (henv : setting.environment.Known s) (ha : a.index < s.size) (hb : b.index < s.size)

include henv ha hb

/-- The checker has decided the pair at its end, for every later store. -/
theorem Finds.decided (h : Finds setting s F a b verdict) :
    ∃ s₁, s.Extends s₁ ∧ s₁.Formed ∧ s₁.Extends F ∧ ∀ F', s₁.Extends F' →
      (verdict = true ↔ Assignable (setting.context F') a b) := by
  obtain ⟨s₀, c, s₁, hs₀, hformed, hrun, hlimit, hF⟩ := h
  have hend := fun F' => ends_isAssignable (F := F') hformed (henv.mono hs₀) 0
    (Nat.lt_of_lt_of_le ha hs₀.size_le) (Nat.lt_of_lt_of_le hb hs₀.size_le)
  rw [hrun] at hend
  refine ⟨s₁, hs₀.trans (hend F).grows, (hend F).formed, hF, fun F' hF' => ?_⟩
  have hreported := ((hend F').ready hF').not_reported hlimit
  obtain ⟨hlo, hhi⟩ := (hend F').post hF'
  refine ⟨fun h => ?_, hlo hreported⟩
  exact under_nil.mp ((hhi h).resolve_right List.not_mem_nil)

theorem Finds.extends (h : Finds setting s F a b verdict) : s.Extends F := by
  obtain ⟨s₁, hgrows, -, hF, -⟩ := h.decided henv ha hb
  exact hgrows.trans hF

theorem Finds.iff (h : Finds setting s F a b verdict) :
    verdict = true ↔ Assignable (setting.context F) a b := by
  obtain ⟨s₁, -, -, hF, hdecided⟩ := h.decided henv ha hb
  exact hdecided F hF

end known

end Assignability

end TypeResolution
