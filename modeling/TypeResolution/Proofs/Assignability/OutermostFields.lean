import TypeResolution.Proofs.Assignability.Coinductive
import TypeResolution.Proofs.Assignability.Explanations
import TypeResolution.Proofs.Assignability.Resolving

/-!
Which field a failure names. When two object types are compared, the failure that is recorded in
the end is about a field that one of the two declares, and the mismatch that it names is there:
the first field of the target that is not met takes the place of what was recorded inside it. Only
the index signature of a target lets a failure inside a field stand.
-/

namespace TypeResolution

namespace Assignability

open Store Replay Check

/-- A failure about a field that one of two object types declares, and what is wrong with it. -/
inductive Names (Γ : Context) (o p : ObjectShape) : Failure → Prop
  | missing {f : Field} : f ∈ p.fields → f.optional = false → o.find? f.name = none →
      Names Γ o p (.missingProperty f.name)
  | optional {f g : Field} : f ∈ p.fields → f.optional = false → o.find? f.name = some g →
      g.optional = true → Names Γ o p (.optionalProperty f.name)
  | mismatch {f g : Field} : f ∈ p.fields → o.find? f.name = some g →
      ¬Assignable Γ g.type f.type → Names Γ o p (.propertyTypeMismatch f.name g.type f.type)
  | excess {g : Field} : Γ.excess = true → p.stringIndex = none → g ∈ o.fields →
      p.find? g.name = none → Names Γ o p (.excessProperty g.name)

/-- Something that the first object type declares does not fit the index signature of the second. -/
def Unindexed (Γ : Context) (o p : ObjectShape) : Prop :=
  ∃ t, p.stringIndex = some t ∧
    ((∃ g ∈ o.fields, ¬Assignable Γ g.type t) ∨ ∃ u, o.stringIndex = some u ∧ ¬Assignable Γ u t)

section runs

variable {α : Type} {c c' : Checker} {s s' : Store}

theorem exists_of_allM_false {l : List α} {f : α → Check Bool}
    (h : l.allM f c s = ((false, c'), s')) :
    ∃ pre a post c₁ s₁, l = pre ++ a :: post ∧ pre.allM f c s = ((true, c₁), s₁) ∧
      f a c₁ s₁ = ((false, c'), s') := by
  induction l generalizing c s with
  | nil => cases h
  | cons b rest ih =>
      change (match (f b c s).1.1 with
        | true => rest.allM f
        | false => pure false : Check Bool) (f b c s).1.2 (f b c s).2 = _ at h
      generalize hb : f b c s = r at h
      obtain ⟨⟨answer, c₁⟩, s₁⟩ := r
      cases answer with
      | false =>
          cases h
          exact ⟨[], b, rest, c, s, rfl, rfl, hb⟩
      | true =>
          obtain ⟨pre, a, post, c₂, s₂, rfl, hpre, ha⟩ := ih h
          refine ⟨b :: pre, a, post, c₂, s₂, rfl, ?_, ha⟩
          change (match (f b c s).1.1 with
            | true => pre.allM f
            | false => pure false : Check Bool) (f b c s).1.2 (f b c s).2 = _
          rw [hb]
          exact hpre

theorem orFailWith_false {m : Check Bool} {reason : Failure}
    (h : (do if ← m then return true else failWith reason : Check Bool) c s = ((false, c'), s')) :
    ∃ c₁, m c s = ((false, c₁), s') ∧ c' = { c₁ with failure := some reason } := by
  change (if (m c s).1.1 = true then return true else failWith reason : Check Bool) (m c s).1.2
    (m c s).2 = _ at h
  generalize m c s = r at h ⊢
  obtain ⟨⟨answer, c₁⟩, s₁⟩ := r
  cases answer with
  | true => cases h
  | false =>
      cases h
      exact ⟨c₁, rfl, rfl⟩

end runs

section object

variable {Γ : Context} {A : List (TypeId × TypeId)} {depth : Nat} {inner : Check.Inner}
  {hi : Relation} {c c' : Checker} {s s' : Store} {o p : ObjectShape} {f : Field}

theorem not_of_decides_false {m : Check Bool} {lo hi : Prop}
    (hm : Decides Γ (Ready Γ A depth) s m lo hi) (hs : s.Formed)
    (hc : s.Extends Γ.store → Ready Γ A depth c) (hrun : m c s = ((false, c'), s'))
    (hF : s'.Extends Γ.store) (hl : c'.depthReported = false) : ¬lo := by
  have hend := hm hs c hc
  rw [hrun] at hend
  intro hlo
  exact absurd ((hend.post hF).1 hl hlo) (by simp)

variable (hasks : Asks Γ (Ready Γ A depth) s inner (Assignable Γ) hi) (hs : s.Formed)
  (hc : s.Extends Γ.store → Ready Γ A depth c) (ho : (Node.object o).Closed AnyName s)

include hasks hs hc ho

theorem field_names (hnone : c.failure = none) (hf : s.Closed AnyName f.type) (hmem : f ∈ p.fields)
    (hrun : field inner o f c s = ((false, c'), s')) (hF : s'.Extends Γ.store)
    (hl : c'.depthReported = false) : ∃ reason, c'.failure = some reason ∧ Names Γ o p reason := by
  unfold field at hrun
  cases hfind : o.find? f.name with
  | none =>
      rw [hfind] at hrun
      cases hopt : f.optional with
      | true =>
          simp only [hopt] at hrun
          cases hrun
      | false =>
          simp only [hopt] at hrun
          cases hrun
          exact ⟨_, by simp [hnone], .missing hmem hopt hfind⟩
  | some g =>
      rw [hfind] at hrun
      by_cases hopt : g.optional && !f.optional
      · simp only [hopt, if_true] at hrun
        cases hrun
        simp only [Bool.and_eq_true, Bool.not_eq_true'] at hopt
        exact ⟨_, by simp [hnone], .optional hmem hopt.2 hfind hopt.1⟩
      · simp only [hopt] at hrun
        obtain ⟨c₁, hinner, rfl⟩ := orFailWith_false hrun
        have hg := closed_fieldType ho (List.mem_of_find?_eq_some hfind)
        refine ⟨_, rfl, .mismatch hmem hfind ?_⟩
        exact not_of_decides_false (hasks s (.refl s) _ _ hg hf) hs hc hinner hF hl

/-- The first declared field of the target that is not met names the failure. -/
theorem fields_name (hx : ∀ x y, Explains (inner x y)) (hnone : c.failure = none)
    (hp : (Node.object p).Closed AnyName s)
    (hrun : p.fields.allM (field inner o) c s = ((false, c'), s')) (hF : s'.Extends Γ.store)
    (hl : c'.depthReported = false) : ∃ reason, c'.failure = some reason ∧ Names Γ o p reason := by
  obtain ⟨pre, f, post, c₁, s₁, hsplit, hpre, hfield⟩ := exists_of_allM_false hrun
  have hmem : ∀ g ∈ pre, g ∈ p.fields := fun g hg => hsplit ▸ List.mem_append_left _ hg
  have hmet : Decides Γ (Ready Γ A depth) s (pre.allM (field inner o)) _ _ :=
    decides_allM fun g hg s₂ h₂ => decides_field (hasks.mono h₂) (h₂.closedNode ho)
      (h₂.closed (closed_fieldType hp (hmem g hg)))
  have hend := hmet hs c hc
  have hpres : Explains (pre.allM (field inner o)) := explains_allM (explains_field hx o)
  have hkept := hpres.kept c s
  rw [hpre] at hend hkept
  have hf : f ∈ p.fields := hsplit ▸ by simp
  exact field_names (hasks.mono hend.grows) hend.formed hend.ready (hend.grows.closedNode ho)
    ((hkept rfl).trans hnone) (hend.grows.closed (closed_fieldType hp hf)) hf hfield hF hl

theorem object_names (hx : ∀ x y, Explains (inner x y)) (hnone : c.failure = none)
    (hp : (Node.object p).Closed AnyName s) (hrun : object inner o p c s = ((false, c'), s'))
    (hF : s'.Extends Γ.store) (hl : c'.depthReported = false) :
    (∃ reason, c'.failure = some reason ∧ Names Γ o p reason) ∨ Unindexed Γ o p := by
  have hfields : Decides Γ (Ready Γ A depth) s (p.fields.allM (field inner o)) _ _ :=
    decides_allM fun g hg s₁ h₁ => decides_field (hasks.mono h₁) (h₁.closedNode ho)
      (h₁.closed (closed_fieldType hp hg))
  have hend := hfields hs c hc
  have hkept := (explains_allM (explains_field hx o) : Explains (p.fields.allM _)).kept c s
  change (if (p.fields.allM (field inner o) c s).1.1 = true then _ else pure false : Check Bool)
    (p.fields.allM (field inner o) c s).1.2 (p.fields.allM (field inner o) c s).2 = _ at hrun
  cases hmet : p.fields.allM (field inner o) c s with
  | mk r s₁ =>
  obtain ⟨answer, c₁⟩ := r
  rw [hmet] at hrun hend hkept
  cases answer with
  | false =>
      cases hrun
      exact .inl (fields_name hasks hs hc ho hx hnone hp hmet hF hl)
  | true =>
      -- All declared fields of the target are met, so nothing is recorded yet.
      have hnone₁ : c₁.failure = none := (hkept rfl).trans hnone
      have ho₁ := hend.grows.closedNode ho
      have hp₁ := hend.grows.closedNode hp
      simp only [if_true] at hrun
      cases hindex : p.stringIndex with
      | some t =>
          rw [hindex] at hrun
          have hmisfit : ¬IndexFits (Assignable Γ) o t :=
            not_of_decides_false (decides_index (hasks.mono hend.grows) ho₁
              (closed_stringIndex hp₁ hindex)) hend.formed hend.ready hrun hF hl
          refine .inr ⟨t, hindex, ?_⟩
          by_contra hfit
          push Not at hfit
          exact hmisfit ⟨hfit.1, hfit.2⟩
      | none =>
          rw [hindex] at hrun
          change (if c₁.excessPropertyCheck = true then excess o p else pure true : Check Bool)
            c₁ s₁ = _ at hrun
          by_cases hexcess : c₁.excessPropertyCheck = true
          · rw [if_pos hexcess] at hrun
            unfold excess at hrun
            cases hg : o.fields.find? fun g => (p.find? g.name).isNone with
            | none =>
                rw [hg] at hrun
                cases hrun
            | some g =>
                rw [hg] at hrun
                cases hrun
                have hmem := List.mem_of_find?_eq_some hg
                refine .inl ⟨_, by simp [hnone₁], .excess ?_ hindex hmem ?_⟩
                · exact (hend.ready hF).excess.symm.trans hexcess
                · simpa using List.find?_some hg
          · rw [if_neg hexcess] at hrun
            cases hrun

end object

section types

variable {setting : Setting} {depth : Nat} {s s' F : Store} {c : Checker} {a b : TypeId}
  {o p : ObjectShape}

theorem exists_pair (nested : Check.Nested) (depth : Nat) :
    ∃ check, subtypeAt nested depth = pair check := by
  cases depth with
  | zero => exact ⟨_, rfl⟩
  | succ depth => exact ⟨_, rfl⟩

theorem reported_of_limit {c₀ : Checker} (hrun : (do
      reportDepthExceeded a
      fail (.typeMismatch a b) : Check Bool) c₀ s = ((false, c), s')) : c.depthReported = true := by
  change fail (.typeMismatch a b) (reportDepthExceeded a c₀ s).1.2 (reportDepthExceeded a c₀ s).2 =
    _ at hrun
  have hreported : (reportDepthExceeded a c₀ s).1.2.depthReported = true := by
    rw [reportDepthExceeded_run]
    split
    · assumption
    · generalize Diagnostic.withLocation _ _ = d
      obtain ⟨ds, hreport, -, -⟩ := report_run d { c₀ with depthReported := true } s
      rw [hreport]
  cases hrun
  exact hreported

theorem rules_of_refused {nested : Check.Nested} {options : Options} (hne : a ≠ b)
    (hrun : Check.isAssignable nested a b (.fresh options) s = ((false, c), s'))
    (hlimit : c.depthReported = false) :
    ∃ c₀ c₁ room, (∀ Γ : Context, Γ.excess = options.excessPropertyCheck →
        Ready Γ [(a, b)] room c₀) ∧ c₀.failure = none ∧
      rules nested (subtypeAt nested room) a b c₀ s = ((false, c₁), s') ∧
      c.failure = c₁.failure ∧ c.depthReported = c₁.depthReported := by
  have hnew : (Checker.fresh options).failures.contains (a, b) = false := by simp [Checker.fresh]
  have hready : ∀ {Γ : Context}, Γ.excess = options.excessPropertyCheck →
      Ready Γ [] options.maxSubtypeDepth.toNat (.fresh options) := ready_fresh
  obtain ⟨check, hpair⟩ := exists_pair nested options.maxSubtypeDepth.toNat
  change subtypeAt nested options.maxSubtypeDepth.toNat a b (.fresh options) s = _ at hrun
  cases henter : ((Checker.fresh options).guard.enter (a, b)).1 with
  | entered =>
      cases hroom : options.maxSubtypeDepth.toNat with
      | zero =>
          have hpos := (@ready_fresh ⟨s, nested, _⟩ options rfl).entered henter
          omega
      | succ room =>
          rw [hroom] at hrun hready
          rw [subtypeAt, pair_run_new hne hnew, henter] at hrun
          obtain ⟨failures, hwork, -, -⟩ := work_run (rules nested (subtypeAt nested room)) a b
            { Checker.fresh options with guard := ((Checker.fresh options).guard.enter (a, b)).2 } s
          dsimp only at hrun
          rw [hwork] at hrun
          generalize hr : rules nested (subtypeAt nested room) a b _ s = r at hrun
          obtain ⟨⟨result, c₁⟩, s₁⟩ := r
          cases hrun
          exact ⟨_, c₁, room, fun Γ hΓ => ((hready hΓ).entered henter).2, rfl, hr, rfl, rfl⟩
  | cycle =>
      rw [hpair, pair_run_new hne hnew, henter] at hrun
      cases hrun
  | depthExceeded | iterationExceeded =>
      rw [hpair, pair_run_new hne hnew, henter] at hrun
      exact absurd (hlimit.symm.trans (reported_of_limit hrun)) (by simp)

/-- When one object type is not assignable to another and no limit was hit, the recorded failure
is about a field that one of the two declares, or the index signature of the target has refused
something that the source declares. -/
theorem outermost_field_named (hs : s.Formed) (henv : setting.environment.Known s)
    (hsource : a.index < s.size) (htarget : b.index < s.size) (ha : s.node a = .object o)
    (hb : s.node b = .object p)
    (hrun : Check.isAssignable (setting.nested depth) a b (.fresh setting.options) s =
      ((false, c), s'))
    (hlimit : ∀ d ∈ c.diagnostics, d.kind ≠ .evaluationDepthExceeded) (hF : s'.Extends F) :
    (∃ reason, c.failure = some reason ∧
      Names ⟨F, setting.nested depth, setting.options.excessPropertyCheck⟩ o p reason) ∨
    Unindexed ⟨F, setting.nested depth, setting.options.excessPropertyCheck⟩ o p := by
  have hne : a ≠ b := by
    rintro rfl
    obtain ⟨check, hpair⟩ :=
      exists_pair (setting.nested depth) setting.options.maxSubtypeDepth.toNat
    change subtypeAt _ setting.options.maxSubtypeDepth.toNat a a _ s = _ at hrun
    rw [hpair, pair, if_pos rfl] at hrun
    cases hrun
  have hready := (ends_isAssignable (F := F) hs henv depth hsource htarget).ready
  rw [hrun] at hready
  have hreported := (hready hF).not_reported hlimit
  obtain ⟨c₀, c₁, room, hstart, hnone, hrules, hfailure, hsame⟩ :=
    rules_of_refused hne hrun hreported
  have hplain : ∀ {t n} {l : List TypeId}, s.node t = .object n → (∀ u ∈ l, u.isFixed) → t ∉ l := by
    intro t n l hn hl hmem
    have hfixed := hs.not_isFixed hn (by simp) (by simp) (by simp)
    exact absurd (hfixed.symm.trans (hl t hmem)) (by simp)
  rw [rules_run_plain (hplain ha (by decide)) (hplain hb (by decide)) (by rw [ha]; rfl)
    (by rw [hb]; rfl)] at hrules
  have hnode : ∀ t, (liftM (Build.node t) : Check Node) c₀ s = ((s.node t, c₀), s) := fun _ => rfl
  simp only [structures, bind, StateT.bind, hnode, ha, hb] at hrules
  rw [hfailure]
  exact object_names (asks_subtypeAt (resolves_nested hs henv depth)) hs
    (fun _ => hstart ⟨F, setting.nested depth, setting.options.excessPropertyCheck⟩ rfl)
    (ha ▸ (hs.closed_of_known hsource).node) (explains_subtypeAt _ room) hnone
    (hb ▸ (hs.closed_of_known htarget).node) hrules hF (hsame ▸ hreported)

end types

end Assignability

end TypeResolution
