import TypeResolution.Proofs.Narrowing.Joining

/-!
A predicate may be written in any way. The type that it asserts is resolved before any member is
compared with it, so narrowing depends only on what that type evaluates to. The literal of an
equality and the value of a discriminant are compared as they are written instead.
-/

namespace TypeResolution

open Store Replay

namespace Narrowing

variable {s s' : Store} {u : TypeId} {setting : Setting}

theorem Recalls.mono {step : Reporting TypeId} (h : Recalls s step u) (hext : s.Extends s') :
    Recalls s' step u :=
  fun s'' h'' => h s'' (hext.trans h'')

/-- Computations that recall the same type may stand for each other. -/
theorem Recalls.follows {step step' : Reporting TypeId} (h : Recalls s step u)
    (h' : Recalls s step' u) (hu : u.index < s.size) : Follows (.free AnyName) s step step' := by
  intro ds ds' _ hs
  obtain ⟨halike, hgives⟩ := h s (.refl s) ds
  have hclosed : (step ds s).2.Closed AnyName u := halike.toExtends.closed (hs.closed_of_known hu)
  have hsame : ∀ {s'}, (step' ds' s').1.1 = u →
      Same (.free AnyName) (step ds s).2 (step ds s).1 (step' ds' s').1 := fun hgives' =>
    ⟨⟨hgives'.trans hgives.symm, hgives ▸ hclosed⟩, False.elim⟩
  refine .of_plain halike.toExtends (halike.formed hs) (fun s' hs' => ?_) fun s' hs' => ?_
  · obtain ⟨halike', hgives'⟩ := h' s' hs'.toExtends ds'
    exact ⟨(halike.symm.trans hs').trans halike', hsame hgives'⟩
  · obtain ⟨halike', hgives'⟩ := h' s' (halike.toExtends.trans hs') ds'
    exact ⟨halike', hsame hgives'⟩

/-- Predicates that are resolved to the same type narrow a type alike. -/
theorem follows_narrow_predicate {t v w : TypeId} {branch : Branch}
    (henv : setting.environment.Agrees AnyName s setting.environment) (ht : s.Closed AnyName t)
    (hu : u.index < s.size) (hv : Recalls s (resolve setting v) u)
    (hw : Recalls s (resolve setting w) u) :
    Follows (.free AnyName) s (narrow setting t (.predicate v) branch)
      (narrow setting t (.predicate w) branch) := by
  refine bind_value (follows_narrowingResolve (.of_agrees henv) ht) fun s₁ h₁ _ r hr => ?_
  have hasserts := (hv.mono h₁).follows (hw.mono h₁) (Nat.lt_of_lt_of_le hu h₁.size_le)
  refine bind_value hasserts fun s₂ h₂ _ a ha => ?_
  exact follows_byPredicate (.of_agrees (henv.mono (h₁.trans h₂))) ha (h₂.closed hr)

end Narrowing

/-- Predicates whose types evaluate to the same one narrow a type to the same one; so a predicate
may be written as an alias of a type that evaluates to itself. -/
theorem narrow_predicate_congr {setting : Setting} {s s₁ s₂ : Store} {t u v w : TypeId}
    {e e' : Evaluator} (hs : s.Formed)
    (henv : setting.environment.Agrees AnyName s setting.environment) (hv : v.index < s.size)
    (hw : w.index < s₁.size)
    (hevalv : Eval.evaluate setting v (.fresh setting.options 0 none) s = ((.ok u, e), s₁))
    (hevalw : Eval.evaluate setting w (.fresh setting.options 0 none) s₁ = ((.ok u, e'), s₂))
    (ht : t.index < s₂.size) (branch : Branch) (ds : Array Diagnostic) :
    (Narrowing.narrow setting t (.predicate v) branch ds s₂).1.1 =
      (Narrowing.narrow setting t (.predicate w) branch ds s₂).1.1 := by
  have hvc : s.Closed AnyName v := hs.closed_of_known hv
  obtain ⟨hgrows₁, hs₁, hu⟩ := Narrowing.formed_evaluated henv hvc hevalv hs
  have henv₁ := henv.mono hgrows₁
  have hwc : s₁.Closed AnyName w := hs₁.closed_of_known hw
  obtain ⟨hgrows₂, hs₂, -⟩ := Narrowing.formed_evaluated henv₁ hwc hevalw hs₁
  have hfollows : Follows (.free AnyName) s₂ (Narrowing.narrow setting t (.predicate v) branch)
      (Narrowing.narrow setting t (.predicate w) branch) :=
    Narrowing.follows_narrow_predicate (henv₁.mono hgrows₂) (hs₂.closed_of_known ht)
      (Nat.lt_of_lt_of_le hu.known hgrows₂.size_le)
      ((Narrowing.recalls_resolve henv hvc hevalv hs).mono hgrows₂)
      (Narrowing.recalls_resolve henv₁ hwc hevalw hs₁)
  exact ((hfollows ds ds (fun _ => rfl) hs₂).beside s₂ (.refl s₂)).2.1.1.symm

end TypeResolution
