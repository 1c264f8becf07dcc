import TypeResolution.Proofs.Limits.Beside
import TypeResolution.Proofs.Mapped.Access

/-!
The source of a mapped type. While a mapped type is under evaluation, its source is evaluated one level
deeper, with the mapped type as the one that waits. If a fresh evaluation leaves the source as it is and does not come
to the mapped type, the evaluation inside the mapped type runs like it.
-/

namespace TypeResolution

open Store Replay Limits Context

/-- No limit was reported. -/
def Evaluator.Unlimited (e : Evaluator) : Prop :=
  ∀ d ∈ e.diagnostics, d.kind ≠ .evaluationDepthExceeded

instance (e : Evaluator) : Decidable e.Unlimited :=
  inferInstanceAs (Decidable (∀ d ∈ e.diagnostics, d.kind ≠ .evaluationDepthExceeded))

namespace Eval

variable {source t : TypeId} {shape : ObjectShape} {s : Store} {env : Environment} {o : Options}

theorem widens_refl (o : Options) : o.Widens o :=
  ⟨UInt32.le_refl _, UInt32.le_refl _, UInt32.le_refl _, rfl, rfl⟩

/-- A limit that was hit is reported. -/
theorem exceeded_of_unlimited
    (h : (evaluate ⟨env, o⟩ t (.fresh o 0 none) s).1.2.Unlimited) :
    (evaluate ⟨env, o⟩ t (.fresh o 0 none) s).1.2.guard.exceeded = false := by
  have htogether : Together (evaluators IsLimit ((widened (widens_refl o)).types.rel 0 0))
      (evaluateAt ⟨env, o⟩ o.maxEvaluationDepth.toNat t)
      (evaluateAt ⟨env, o⟩ o.maxEvaluationDepth.toNat t) :=
    together_evaluateAt (widened (widens_refl o)) (unfolds_evaluateAt ⟨env, o⟩) (Nat.le_refl 0)
      (Nat.le_add_left _ _) t
  rcases htogether.same _ _ s ((widened (widens_refl o)).rel_fresh 0 none) with
    ⟨d, hd, hD⟩ | ⟨_, _, g, _, hwider⟩
  · exact absurd hD (h d hd)
  · exact hwider.within

/-- The evaluator that has entered `t` first. -/
def entering (o : Options) (t : TypeId) : Evaluator :=
  let e := Evaluator.fresh o 0 none
  { e with guard := { e.guard.tick with active := [t], depth := 1 } }

theorem guarded_fresh {work : TypeId → Node → Eval TypeId} {setting : Setting}
    (hfixed : t.isFixed = false)
    (hexceeded : (guarded work setting t (.fresh o 0 none) s).1.2.guard.exceeded = false) :
    0 < o.maxEvaluationDepth.toNat ∧ guarded work setting t (.fresh o 0 none) s =
      finish t (work t (s.node t) (entering o t) s) := by
  have hturn : Turn work setting t (.fresh o 0 none) s (guarded work setting t (.fresh o 0 none) s) :=
    turn_guarded hfixed rfl
  generalize guarded work setting t (.fresh o 0 none) s = x at hturn hexceeded
  cases hturn with
  | known h => simp [Evaluator.fresh] at h
  | halted h => exact absurd h.exceeded (Bool.eq_false_iff.mp hexceeded)
  | cycle h => cases h
  | entered _ _ hdepth => exact ⟨hdepth, rfl⟩

/-- A fresh evaluation that hits no limit enters its type. -/
theorem evaluate_entered (hfixed : t.isFixed = false)
    (hlimit : (evaluate ⟨env, o⟩ t (.fresh o 0 none) s).1.2.Unlimited) :
    ∃ depth, o.maxEvaluationDepth.toNat = depth + 1 ∧
      evaluate ⟨env, o⟩ t (.fresh o 0 none) s = finish t
        (node (evaluateAt ⟨env, o⟩ depth) ⟨env, o⟩ t (s.node t) (entering o t) s) := by
  have hexceeded := exceeded_of_unlimited hlimit
  have hrun : evaluate ⟨env, o⟩ t (.fresh o 0 none) s =
      evaluateAt ⟨env, o⟩ o.maxEvaluationDepth.toNat t (.fresh o 0 none) s := rfl
  rw [hrun] at hexceeded ⊢
  cases hdepth : o.maxEvaluationDepth.toNat with
  | zero =>
      rw [hdepth] at hexceeded
      have hpos := (guarded_fresh hfixed hexceeded).1
      omega
  | succ depth =>
      rw [hdepth] at hexceeded
      exact ⟨depth, rfl, (guarded_fresh hfixed hexceeded).2⟩

section source

variable (henv : env.Agrees AnyName s env) (hs : s.Formed) (hobject : s.node source = .object shape)

include henv hs hobject

/-- All that a fresh evaluation of the object remembers fits, if the object stays as it is. -/
theorem sound_evaluate
    (hvalue : (evaluate ⟨env, o⟩ source (.fresh o 0 none) s).1.1 = .ok source)
    (hlimit : (evaluate ⟨env, o⟩ source (.fresh o 0 none) s).1.2.Unlimited) :
    let x := evaluate ⟨env, o⟩ source (.fresh o 0 none) s
    s.Extends x.2 ∧ x.2.Formed ∧ source ∈ x.1.2.cache ∧ Sound source shape x.2 x.1.2.cache := by
  have hfixed := hs.not_isFixed hobject (by simp) (by simp) (by simp)
  have hexceeded := exceeded_of_unlimited hlimit
  obtain ⟨depth, hdepth, hrun⟩ := evaluate_entered hfixed hlimit
  have hsource : s.Closed AnyName source := hs.closed_of_known (known_of_node hobject (by simp))
  have hresolves : ∀ s₁, s.Extends s₁ → ∀ n, Resolves anyLink s₁
      ⟨evaluateAt ⟨env, o⟩ depth, .fresh o n none⟩ ⟨evaluateAt ⟨env, o⟩ depth, .fresh o n none⟩ :=
    fun s₁ h₁ n s₂ h₂ u hu =>
      evaluates_evaluateAt (.of_agrees (henv.mono (h₁.trans h₂))) depth s₂ (.refl s₂) u hu
        _ _ (same_fresh n s₂)
  have hnode : (remembering source shape o.maxEvaluationDepth.toNat 1).Keeps s
      (node (evaluateAt ⟨env, o⟩ depth) ⟨env, o⟩ source (s.node source))
      (node (evaluateAt ⟨env, o⟩ depth) ⟨env, o⟩ source (s.node source)) :=
    Invariant.keeps_node henv (evaluates_remembering henv (by omega)) hresolves hsource hsource.node
  have hentered : Remembers source shape o.maxEvaluationDepth.toNat 1 s (entering o source) :=
    ⟨hobject, .inl (by simp [entering]), rfl, rfl, rfl, rfl, fun t r h => by
      simp [entering, Evaluator.fresh] at h⟩
  obtain ⟨hgrows, hformed, hfit, -, -, -⟩ := hnode hs _ hentered
  rw [hrun] at hvalue hexceeded ⊢
  generalize node (evaluateAt ⟨env, o⟩ depth) ⟨env, o⟩ source (s.node source) (entering o source) s = y
    at hgrows hformed hfit hvalue hexceeded
  rcases y with ⟨⟨_ | r, e⟩, s₁⟩
  · cases hvalue
  · cases hvalue
    have he : e.guard.exceeded = false := hexceeded
    intro x
    have hcache : x.1.2.cache = e.cache.insert source source := if_neg (by simp [he])
    have hclosed : s₁.Closed AnyName source := hgrows.closed hsource
    rw [hcache]
    refine ⟨hgrows, hformed, by simp, Sound.insert hfit.remembered ⟨hclosed, hclosed, ?_⟩⟩
    refine ⟨fun _ => rfl, fun key part haccess => ?_⟩
    have hobject₁ : s₁.node source = .object shape := hfit.object
    have haccess : s₁.node source = .indexAccess source key := haccess
    rw [hobject₁] at haccess
    cases haccess

/-- Inside `t`, the object is evaluated as it is afresh. -/
theorem remembers_within {depth : Nat} (hdepth : o.maxEvaluationDepth.toNat = depth + 1)
    (hvalue : (evaluate ⟨env, o⟩ source (.fresh o 0 none) s).1.1 = .ok source)
    (hlimit : (evaluate ⟨env, o⟩ source (.fresh o 0 none) s).1.2.Unlimited)
    (ht : t ∉ (evaluate ⟨env, o⟩ source (.fresh o 0 none) s).1.2.cache)
    (hwithin : (evaluateAt ⟨env, o⟩ depth source (entering o t) s).1.2.Unlimited) :
    let x := evaluate ⟨env, o⟩ source (.fresh o 0 none) s
    ∃ e, evaluateAt ⟨env, o⟩ depth source (entering o t) s = ((.ok source, e), x.2) ∧
      Remembers source shape o.maxEvaluationDepth.toNat 1 x.2 e ∧ e.guard.active = [t] ∧
      e.diagnostics = x.1.2.diagnostics := by
  intro x
  let y := evaluateAt ⟨env, o⟩ depth source (entering o t) s
  -- an evaluation at the top that is at work on `t`
  let e₁ : Evaluator := { entering o t with guard := { (entering o t).guard with
    depth := 0, iterations := 0 } }
  let lockstep := raised 1 (widens_refl o)
  have hdeeper : Together (evaluators IsLimit (lockstep.types.rel 0 0))
      (evaluateAt ⟨env, o⟩ depth source)
      (evaluateAt ⟨env, o⟩ o.maxEvaluationDepth.toNat source) :=
    together_evaluateAt lockstep (unfolds_evaluateAt ⟨env, o⟩) (Nat.le_refl 0) (by omega) source
  have hbeside : Together (awaited t) (evaluateAt ⟨env, o⟩ o.maxEvaluationDepth.toNat source)
      (evaluateAt ⟨env, o⟩ o.maxEvaluationDepth.toNat source) :=
    together_awaited t o.maxEvaluationDepth.toNat source
  have hrestores : ∀ depth, Restores (.stopped {}) (evaluateAt ⟨env, o⟩ depth source)
      (evaluateAt ⟨env, o⟩ depth source) := fun depth => restores_evaluateAt depth source
  have hkept : (entering o t).Kept y.1.2 :=
    (hrestores depth (entering o t) s (Nat.zero_le 1)).kept
  rcases hdeeper.same (entering o t) e₁ s
    ⟨_, rfl, rfl, rfl, rfl, Nat.zero_le _, rfl, rfl, Nat.zero_le _, rfl⟩ with
    ⟨d, hd, hD⟩ | ⟨hvalue₁, hstore₁, g₁, he₁, hwider⟩
  · exact absurd hD (hwithin d hd)
  rcases hbeside.same (.fresh o 0 none) e₁ s ⟨_, rfl, List.not_mem_nil, Nat.le_refl 0, rfl⟩ with
    (hmem | hexceeded | hpatience) | ⟨hvalue₂, hstore₂, g₂, he₂, _⟩
  · exact absurd hmem ht
  · exact absurd hexceeded (Bool.eq_false_iff.mp (exceeded_of_unlimited hlimit))
  · have hkept : (Evaluator.fresh o 0 none).Kept x.1.2 :=
      (hrestores o.maxEvaluationDepth.toNat (.fresh o 0 none) s (Nat.le_refl 0)).kept
    exact absurd (hkept.patience rfl) hpatience
  have hsame := he₁.symm.trans he₂
  have hcache := congrArg Evaluator.cache hsame
  have hdiagnostics := congrArg Evaluator.diagnostics hsame
  replace hcache : y.1.2.cache = x.1.2.cache := hcache
  obtain ⟨hgrows, hformed, hmem, hsound⟩ := sound_evaluate henv hs hobject hvalue hlimit
  have hknown := known_of_node hobject (by simp)
  refine ⟨y.1.2, Prod.ext (Prod.ext (hvalue₁.symm.trans (hvalue₂.trans hvalue)) rfl)
    (hstore₁.symm.trans hstore₂), ?_, hkept.active, hdiagnostics⟩
  exact {
    object := (hgrows.node_eq source hknown).trans hobject
    settled := .inr (hcache ▸ hmem)
    depth := hkept.depth
    base := hkept.baseDepth
    maxDepth := hwider.maxDepth
    patience := hkept.patience rfl
    remembered := hcache ▸ hsound }

end source

end Eval

end TypeResolution
