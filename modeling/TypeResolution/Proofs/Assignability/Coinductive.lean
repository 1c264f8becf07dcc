import Mathlib
import TypeResolution.Proofs.Assignability.Decision
import TypeResolution.Proofs.Tidy.Reachable

/-!
The checker decides assignability. It answers `true` for pairs it is working on and remembers
pairs that failed. The first is what coinduction allows; the second is harmless as long as no limit
is hit, since a pair that fails while some pairs are taken for granted is not assignable at all.
-/

namespace TypeResolution

namespace Assignability

open Store Replay

variable {Γ : Context} {A : List (TypeId × TypeId)} {depth : Nat} {s : Store}

section pairs

open Check

variable {check : Check.Inner} {a b : TypeId} {reason : Failure}

/-- What the guard says does not matter for the other fields of a checker. -/
theorem Ready.withGuard {A' : List (TypeId × TypeId)} {depth' : Nat} {c : Checker}
    (hc : Ready Γ A depth c) {g : Recursion.Guard (TypeId × TypeId)} (hactive : g.active = A')
    (hroom : g.depth + depth' = g.maxDepth) (hbase : g.baseDepth + A'.length ≤ g.depth) :
    Ready Γ A' depth' { c with guard := g } :=
  ⟨hactive, hroom, hbase, hc.excess, hc.failures, hc.reported⟩

theorem enter_eq_of_entered {g : Recursion.Guard (TypeId × TypeId)} {p : TypeId × TypeId}
    (h : (g.enter p).1 = .entered) :
    g.depth < g.maxDepth ∧
      (g.enter p).2 = { g.tick with active := p :: g.active, depth := g.depth + 1 } := by
  unfold Recursion.Guard.enter at h ⊢
  grind [Recursion.Guard.tick]

theorem enter_eq_of_refused {g : Recursion.Guard (TypeId × TypeId)} {p : TypeId × TypeId}
    (h : (g.enter p).1 ≠ .entered) :
    ((g.enter p).1 = .cycle → g.depth < g.maxDepth ∧ p ∈ g.active) ∧
      ∃ exceeded, (g.enter p).2 = { g.tick with exceeded := exceeded } := by
  unfold Recursion.Guard.enter at h ⊢
  grind [Recursion.Guard.tick]

theorem Ready.entered {c : Checker} {p : TypeId × TypeId} (hc : Ready Γ A depth c)
    (h : (c.guard.enter p).1 = .entered) :
    0 < depth ∧ Ready Γ (p :: A) (depth - 1) { c with guard := (c.guard.enter p).2 } := by
  obtain ⟨hlt, hg⟩ := enter_eq_of_entered h
  have hroom := hc.room
  have hbase := hc.base
  refine ⟨by omega, ?_⟩
  rw [hg]
  refine hc.withGuard ?_ ?_ ?_
  · simp [hc.active]
  · simp only [Recursion.Guard.tick]
    omega
  · simp only [Recursion.Guard.tick, List.length_cons]
    omega

theorem Ready.refused {c : Checker} {p : TypeId × TypeId} (hc : Ready Γ A depth c)
    (h : (c.guard.enter p).1 ≠ .entered) :
    Ready Γ A depth { c with guard := (c.guard.enter p).2 } := by
  obtain ⟨_, exceeded, hg⟩ := enter_eq_of_refused h
  rw [hg]
  exact hc.withGuard hc.active hc.room hc.base

theorem Ready.left {c : Checker} {p : TypeId × TypeId} (hc : Ready Γ (p :: A) depth c) :
    Ready Γ A (depth + 1) { c with guard := c.guard.leave p } := by
  have hroom := hc.room
  have hbase := hc.base
  simp only [List.length_cons] at hbase
  refine hc.withGuard ?_ ?_ ?_
  · simp [Recursion.Guard.leave, hc.active]
  · simp only [Recursion.Guard.leave]
    omega
  · simp only [Recursion.Guard.leave]
    omega

theorem Ready.remember {c : Checker} (hc : Ready Γ A depth c)
    (h : c.depthReported = false → ¬Assignable Γ a b) :
    Ready Γ A depth { c with failures := c.failures.insert (a, b) } where
  active := hc.active
  room := hc.room
  base := hc.base
  excess := hc.excess
  failures hl x y hxy := by
    rcases Std.HashSet.mem_insert.mp hxy with heq | hmem
    · obtain ⟨rfl, rfl⟩ := Prod.mk.inj (eq_of_beq heq)
      exact h hl
    · exact hc.failures hl x y hmem
  reported := hc.reported

theorem reportDepthExceeded_run (c : Checker) (s : Store) :
    reportDepthExceeded a c s =
      if c.depthReported then (((), c), s)
      else Check.report ((Diagnostic.of .evaluationDepthExceeded [toString c.guard.maxDepth]).withLocation
        (s.origin? (.type a))) { c with depthReported := true } s := by
  have hstep : reportDepthExceeded a c s = (if c.depthReported then pure () else do
      modify ({ · with depthReported := true })
      let limit := (← get).guard.maxDepth
      let site ← Build.origin? (.type a)
      Check.report ((Diagnostic.of .evaluationDepthExceeded [toString limit]).withLocation site) :
      Check Unit) c s := rfl
  rw [hstep]
  split <;> rfl

theorem steps_reportDepthExceeded :
    Checks Γ (Ready Γ A depth) s (reportDepthExceeded a) fun limited _ => limited = true := by
  intro hs c hc
  rw [reportDepthExceeded_run]
  split
  · exact ⟨.refl s, hs, trivial, hc, id, fun _ => ‹_›⟩
  · generalize hd : Diagnostic.withLocation _ _ = d
    obtain ⟨ds, hrun, hmem, -⟩ := report_run d { c with depthReported := true } s
    rw [hrun]
    refine ⟨.refl s, hs, trivial, fun hF => ?_, fun _ => rfl, fun _ => rfl⟩
    have hc := hc hF
    exact ⟨hc.active, hc.room, hc.base, hc.excess, nofun, fun _ => ⟨d, hmem, hd ▸ rfl⟩⟩

/-- A pair that hits a limit is not decided. -/
theorem decides_limit {lo hi : Prop} : Decides Γ (Ready Γ A depth) s (do
    reportDepthExceeded a
    fail reason) lo hi := by
  refine Steps.bind steps_reportDepthExceeded fun s₁ _ limited h₁ _ hl => ?_
  refine Steps.mono (never_fail _) fun hF limited' r hr hmono => ?_
  have hl' : limited' = true := hmono (hl hF)
  exact ⟨fun h => absurd (hl'.symm.trans h) (by simp), fun h => (hr.2 h).elim⟩

theorem work_run (check : Check.Inner) (a b : TypeId) (c : Checker) (s : Store) :
    ∃ failures, work check a b c s =
      (((check a b c s).1.1, { (check a b c s).1.2 with
        guard := (check a b c s).1.2.guard.leave (a, b)
        failures := failures }), (check a b c s).2) ∧
      ((check a b c s).1.1 = true → failures = (check a b c s).1.2.failures) ∧
      ((check a b c s).1.1 = false → failures = (check a b c s).1.2.failures.insert (a, b)) := by
  generalize hr : check a b c s = r
  obtain ⟨⟨result, c'⟩, s'⟩ := r
  have hrun : work check a b c s = (do
      leave (a, b)
      unless result do
        modify fun c => { c with failures := c.failures.insert (a, b) }
      return result : Check Bool) c' s' := by
    simp only [work, bind, StateT.bind, hr]
  rw [hrun]
  cases result with
  | true => exact ⟨_, rfl, fun _ => rfl, nofun⟩
  | false => exact ⟨_, rfl, nofun, fun _ => rfl⟩

theorem pair_run_failed {c : Checker} (hne : a ≠ b)
    (hnew : c.failures.contains (a, b) = true) :
    pair check a b c s = fail (.typeMismatch a b) c s := by
  unfold pair
  rw [if_neg hne]
  change (if c.failures.contains (a, b) then _ else _ : Check Bool) c s = _
  rw [if_pos hnew]

theorem pair_run_new {c : Checker} (hne : a ≠ b)
    (hnew : c.failures.contains (a, b) = false) :
    pair check a b c s =
      (match (c.guard.enter (a, b)).1 with
      | .entered => work check a b
      | .cycle => return true
      | _ => do
          reportDepthExceeded a
          fail (.typeMismatch a b) : Check Bool) { c with guard := (c.guard.enter (a, b)).2 } s := by
  unfold pair
  rw [if_neg hne]
  change (if c.failures.contains (a, b) then _ else _ : Check Bool) c s = _
  rw [if_neg (by simp [hnew])]
  rfl

theorem pair_run_true {s' : Store} {c c' : Checker} (hne : a ≠ b)
    (hnew : c.failures.contains (a, b) = false) (henter : (c.guard.enter (a, b)).1 = .entered)
    (hcheck : check a b { c with guard := (c.guard.enter (a, b)).2 } s = ((true, c'), s')) :
    pair check a b c s = ((true, { c' with guard := c'.guard.leave (a, b) }), s') := by
  rw [pair_run_new hne hnew, henter]
  obtain ⟨failures, hrun, hkeep, -⟩ :=
    work_run check a b { c with guard := (c.guard.enter (a, b)).2 } s
  dsimp only
  rw [hrun]
  simp only [hcheck] at hkeep ⊢
  rw [hkeep trivial]

/-- Leaving a pair keeps what its check has found out. -/
theorem ends_work {lo hi yes : Prop} {c : Checker} (hs : s.Formed)
    (hc : s.Extends Γ.store → 0 < depth ∧ Ready Γ ((a, b) :: A) (depth - 1) c)
    (hcheck : Decides Γ (Ready Γ ((a, b) :: A) (depth - 1)) s (check a b) lo hi)
    (hlo : 0 < depth → Assignable Γ a b → lo) (hhi : 0 < depth → hi → yes) :
    Ends (Ok AnyName) Checker.depthReported Γ.store (Ready Γ A depth)
      (fun limited r => (limited = false → Assignable Γ a b → r = true) ∧
        (r = true → yes)) s c (work check a b c s) := by
  have hend := hcheck hs c fun hF => (hc hF).2
  obtain ⟨failures, hrun, htrue, hfalse⟩ := work_run check a b c s
  rw [hrun]
  generalize check a b c s = r at hend hrun htrue hfalse
  obtain ⟨⟨result, c'⟩, s'⟩ := r
  have hdepth : s'.Extends Γ.store → 0 < depth := fun hF => (hc (hend.grows.trans hF)).1
  refine ⟨hend.grows, hend.formed, trivial, fun hF => ?_, hend.limit, fun hF => ?_⟩
  · have hleft := (hend.ready hF).left
    rw [Nat.sub_add_cancel (hdepth hF)] at hleft
    cases result with
    | true =>
        rw [htrue rfl]
        exact hleft
    | false =>
        rw [hfalse rfl]
        refine hleft.remember fun hl hassignable => ?_
        exact absurd ((hend.post hF).1 hl (hlo (hdepth hF) hassignable)) (by simp)
  · exact ⟨fun hl h => (hend.post hF).1 hl (hlo (hdepth hF) h),
      fun hr => hhi (hdepth hF) ((hend.post hF).2 hr)⟩

/-- A pair is decided while the pairs in progress are taken for granted. -/
theorem decides_pair {lo hi yes : Prop}
    (hcheck : Decides Γ (Ready Γ ((a, b) :: A) (depth - 1)) s (check a b) lo hi)
    (hlo : 0 < depth → a ≠ b → Assignable Γ a b → lo) (hsame : a = b → yes)
    (hcycle : 0 < depth → (a, b) ∈ A → yes) (hhi : 0 < depth → hi → yes) :
    Decides Γ (Ready Γ A depth) s (pair check a b) (Assignable Γ a b) yes := by
  by_cases hne : a = b
  · unfold pair
    rw [if_pos hne]
    exact decides_true (hsame hne)
  intro hs c hc
  cases hnew : c.failures.contains (a, b) with
  | true =>
      rw [pair_run_failed hne hnew]
      have hend := never_fail (.typeMismatch a b) hs c hc
      refine { hend with post := fun hF => ⟨fun hl hlo => ?_, fun hr => ((hend.post hF).2 hr).elim⟩ }
      exact absurd hlo ((hc hF).failures hl a b hnew)
  | false =>
      rw [pair_run_new hne hnew]
      have hlimit : Decides Γ (Ready Γ A depth) s (do
          reportDepthExceeded a
          fail (.typeMismatch a b)) (Assignable Γ a b) yes := decides_limit
      cases henter : (c.guard.enter (a, b)).1 with
      | entered =>
          have hend := ends_work hs (fun hF => (hc hF).entered henter) hcheck
            (fun hd => hlo hd hne) hhi
          exact { hend with limit := hend.limit }
      | cycle =>
          have hrefused : (c.guard.enter (a, b)).1 ≠ .entered := by simp [henter]
          refine ⟨.refl s, hs, trivial, fun hF => (hc hF).refused hrefused, id, fun hF => ?_⟩
          obtain ⟨hlt, hmem⟩ := (enter_eq_of_refused hrefused).1 henter
          have hroom := (hc hF).room
          rw [(hc hF).active] at hmem
          exact ⟨fun _ _ => rfl, fun _ => hcycle (by omega) hmem⟩
      | depthExceeded =>
          have hrefused : (c.guard.enter (a, b)).1 ≠ .entered := by simp [henter]
          have hend := hlimit hs _ fun hF => (hc hF).refused hrefused
          exact { hend with limit := hend.limit }
      | iterationExceeded =>
          have hrefused : (c.guard.enter (a, b)).1 ≠ .entered := by simp [henter]
          have hend := hlimit hs _ fun hF => (hc hF).refused hrefused
          exact { hend with limit := hend.limit }

/-- A check takes only pairs that obey the rules as far as it can see. -/
theorem asks_within (hn : Resolves (.free AnyName) s Γ.nested Γ.nested) :
    Asks Γ (Ready Γ A depth) s (subtypeAt Γ.nested depth) (Assignable Γ) (Within Γ depth A) := by
  induction depth generalizing s A with
  | zero =>
      intro s₁ h₁ a b ha hb
      apply decides_pair (never_fail _) (fun h => absurd h (by simp)) id
      · exact fun h => absurd h (by simp)
      · exact fun h => absurd h (by simp)
  | succ depth ih =>
      intro s₁ h₁ a b ha hb
      apply decides_pair (decides_rules (hn.mono h₁) (ih (hn.mono h₁)) ha hb)
      · intro _ hne h
        exact (Assignable.consistent a b h).resolve_left hne
      · exact .inl
      · exact fun _ h => .inr (.inl h)
      · exact fun _ h => .inr (.inr h)

theorem asks_subtypeAt (hn : Resolves (.free AnyName) s Γ.nested Γ.nested) :
    Asks Γ (Ready Γ A depth) s (subtypeAt Γ.nested depth) (Assignable Γ)
      (fun x y => Under Γ A x y ∨ (x, y) ∈ A) := by
  intro s₁ h₁ a b ha hb
  exact Decides.mono (asks_within hn s₁ h₁ a b ha hb) (fun _ => id) fun _ => Within.under

end pairs

end Assignability

/-- The aliases are types of the store. -/
structure Environment.Known (s : Store) (env : Environment) : Prop where
  body : ∀ a ∈ env.aliases, a.body.index < s.size
  default : ∀ a ∈ env.aliases, ∀ p ∈ a.params, ∀ t, p.default = some t → t.index < s.size

namespace Assignability

open Store Replay

theorem resolves_nested {s : Store} {setting : Setting} (hs : s.Formed)
    (henv : setting.environment.Known s) (depth : Nat) :
    Resolves (.free AnyName) s (setting.nested depth) (setting.nested depth) := by
  intro s₁ h₁ t ht
  have hagrees : setting.environment.Agrees AnyName s setting.environment := by
    refine ⟨fun _ _ => rfl, fun name a _ ha => ?_, fun name a _ ha p hp t ht => ?_⟩
    · exact hs.closed_of_known (henv.body a (List.mem_of_find?_eq_some ha))
    · exact hs.closed_of_known (henv.default a (List.mem_of_find?_eq_some ha) p hp t ht)
  have heval : Follows (.free AnyName) s₁ (Eval.evaluateAt setting _ t) (Eval.evaluateAt setting _ t) :=
    evaluates_evaluateAt (.of_agrees hagrees) (setting.options.maxEvaluationDepth.toNat - depth) s₁ h₁ t ht
  exact heval _ _ (.fresh setting.options depth False.elim)

theorem ready_fresh {Γ : Context} {options : Options} (hexcess : Γ.excess = options.excessPropertyCheck) :
    Ready Γ [] options.maxSubtypeDepth.toNat (.fresh options) where
  active := rfl
  room := Nat.zero_add _
  base := Nat.le_refl 0
  excess := hexcess.symm
  failures _ a b h := by simp [Checker.fresh] at h
  reported := nofun

theorem rules_run_plain {s : Store} {nested : Check.Nested} {inner : Check.Inner} {a b : TypeId}
    {c : Checker} (ha : a ∉ [TypeId.never, .error, .any])
    (hb : b ∉ [TypeId.any, .unknown, .error, .never]) (hma : (s.node a).isMeta = false)
    (hmb : (s.node b).isMeta = false) :
    Check.rules nested inner a b c s = Check.structures inner a b c s := by
  simp only [List.mem_cons, List.not_mem_nil, or_false, not_or] at ha hb
  have hresolve : ∀ t, (s.node t).isMeta = false →
      Check.resolve nested t c s = ((t, c), s) := by
    intro t ht
    have hnode : Check.resolve nested t c s =
        (if (s.node t).isMeta then _ else pure t : Check TypeId) c s := rfl
    rw [hnode, if_neg (by simp [ht])]
    rfl
  simp [Check.rules, ha, hb, bind, StateT.bind, hresolve a hma, hresolve b hmb]

/-- Components that only evaluation can resolve are resolved first, and their results are compared. -/
theorem rules_run_resolved {nested : Check.Nested} {inner : Check.Inner} {a b : TypeId} {c : Checker} {s : Store}
    (ha : a ∉ [TypeId.never, .error, .any]) (hb : b ∉ [TypeId.any, .unknown, .error, .never]) :
    let x := Check.resolve nested a c s
    let y := Check.resolve nested b x.1.2 x.2
    ¬(x.1.1 = a ∧ y.1.1 = b) → Check.rules nested inner a b c s = inner x.1.1 y.1.1 y.1.2 y.2 := by
  intro x y hne
  simp only [List.mem_cons, List.not_mem_nil, or_false, not_or] at ha hb
  have hrun : Check.rules nested inner a b c s =
      (if x.1.1 = a && y.1.1 = b then Check.structures inner a b else inner x.1.1 y.1.1) y.1.2 y.2 := by
    simp only [Check.rules, ha, hb]
    rfl
  rw [hrun, if_neg (by simpa using hne)]

/-- The checker at work on its first pair. -/
def started (o : Options) (a b : TypeId) : Checker :=
  { Checker.fresh o with guard := ((Checker.fresh o).guard.enter (a, b)).2 }

/-- A first pair that is resolved and then found to be related. -/
theorem isAssignable_run_resolved {nested : Check.Nested} {depth : Nat} {o : Options} {a b : TypeId}
    {s : Store} (hne : a ≠ b) (ha : a ∉ [TypeId.never, .error, .any])
    (hb : b ∉ [TypeId.any, .unknown, .error, .never]) (hdepth : o.maxSubtypeDepth.toNat = depth + 1)
    (henter : ((Checker.fresh o).guard.enter (a, b)).1 = .entered) :
    let x := Check.resolve nested a (started o a b) s
    let y := Check.resolve nested b x.1.2 x.2
    let z := Check.subtypeAt nested depth x.1.1 y.1.1 y.1.2 y.2
    x.1.1 ≠ a → z.1.1 = true → Check.isAssignable nested a b (.fresh o) s =
      ((true, { z.1.2 with guard := z.1.2.guard.leave (a, b) }), z.2) := by
  intro x y z hresolved htrue
  have hrules : Check.rules nested (Check.subtypeAt nested depth) a b (started o a b) s = ((true, z.1.2), z.2) := by
    rw [rules_run_resolved ha hb fun h => hresolved h.1, ← htrue]
    rfl
  have hrun : Check.isAssignable nested a b (.fresh o) s =
      Check.subtypeAt nested o.maxSubtypeDepth.toNat a b (.fresh o) s := rfl
  rw [hrun, hdepth]
  exact pair_run_true hne (by simp [Checker.fresh]) henter hrules

theorem ends_of_ready {s : Store} {Γ : Context} {depth : Nat} {c : Checker} {a b : TypeId}
    (hs : s.Formed) (hn : Resolves (.free AnyName) s Γ.nested Γ.nested)
    (ha : s.Closed AnyName a) (hb : s.Closed AnyName b) (hc : Ready Γ [] depth c) :
    Ends (Ok AnyName) Checker.depthReported Γ.store (Ready Γ [] depth)
      (fun limited verdict => (limited = false → Assignable Γ a b → verdict = true) ∧
        (verdict = true → Under Γ [] a b ∨ (a, b) ∈ []))
      s { c with failure := none } (Check.isAssignable Γ.nested a b c s) := by
  have hasks : Asks Γ (Ready Γ [] depth) s (Check.subtypeAt Γ.nested depth) (Assignable Γ)
      fun x y => Under Γ [] x y ∨ (x, y) ∈ [] := asks_subtypeAt hn
  have hroom : c.guard.maxDepth - c.guard.depth = depth := by
    have hroom := hc.room
    omega
  have hrun : Check.isAssignable Γ.nested a b c s = Check.subtypeAt Γ.nested
      (c.guard.maxDepth - c.guard.depth) a b { c with failure := none } s := rfl
  rw [hrun, hroom]
  exact hasks s (.refl s) a b ha hb hs _ fun _ =>
    ⟨hc.active, hc.room, hc.base, hc.excess, hc.failures, hc.reported⟩

/-- How a checker that starts afresh ends. -/
theorem ends_isAssignable {s F : Store} {setting : Setting} {source target : TypeId} (hs : s.Formed)
    (henv : setting.environment.Known s) (depth : Nat) (hsource : source.index < s.size)
    (htarget : target.index < s.size) :
    let Γ : Context := ⟨F, setting.nested depth, setting.options.excessPropertyCheck⟩
    Ends (Ok AnyName) Checker.depthReported F (Ready Γ [] setting.options.maxSubtypeDepth.toNat)
      (fun limited verdict => (limited = false → Assignable Γ source target → verdict = true) ∧
        (verdict = true → Under Γ [] source target ∨ (source, target) ∈ []))
      s (.fresh setting.options)
      (Check.isAssignable (setting.nested depth) source target (.fresh setting.options) s) := by
  intro Γ
  have hready : Ready Γ [] setting.options.maxSubtypeDepth.toNat (.fresh setting.options) :=
    ready_fresh rfl
  exact ends_of_ready hs (resolves_nested hs henv depth) (hs.closed_of_known hsource)
    (hs.closed_of_known htarget) hready

/-- A checker that reports no limit answers `true` exactly for the pairs of the greatest relation
that obeys the rules, as they stand when it has finished or later. -/
theorem isAssignable_iff_consistent {s s' F : Store} {setting : Setting} {depth : Nat}
    {source target : TypeId} {verdict : Bool} {c : Checker} (hs : s.Formed)
    (henv : setting.environment.Known s) (hsource : source.index < s.size)
    (htarget : target.index < s.size)
    (hrun : Check.isAssignable (setting.nested depth) source target (.fresh setting.options) s =
      ((verdict, c), s'))
    (hlimit : ∀ d ∈ c.diagnostics, d.kind ≠ .evaluationDepthExceeded) (hF : s'.Extends F) :
    verdict = true ↔ ∃ R : Relation, R source target ∧
      Consistent ⟨F, setting.nested depth, setting.options.excessPropertyCheck⟩ R := by
  have hend := ends_isAssignable (F := F) hs henv depth hsource htarget
  rw [hrun] at hend
  have hpost := hend.post hF
  constructor
  · intro h
    rcases hpost.2 h with h | h
    · exact under_nil.mp h
    · cases h
  · intro h
    refine hpost.1 ?_ h
    by_contra hreported
    obtain ⟨d, hd, hkind⟩ := (hend.ready hF).reported (by simpa using hreported)
    exact hlimit d hd hkind

/-- Two aliases that stand for recursive types, and references to them. -/
structure Chains where
  source : TypeId
  target : TypeId
  environment : Environment
  store : Store

/-- `type A = { next: A, x: string }` and
`type B = { x: number } | { x: number, y: string } | { next: B }`. -/
def chains : Chains :=
  let a := (TypeExpr.of (.object [.of "next" (.named "A"), .of "x" .string] none)).lower [] 0 .empty
  let b := (TypeExpr.of (.union [.of (.object [.of "x" .number] none),
    .of (.object [.of "x" .number, .of "y" .string] none),
    .of (.object [.of "next" (.named "B")] none)])).lower [] 0 a.2
  let source := (TypeExpr.named "A").lower [] 0 b.2
  let target := (TypeExpr.named "B").lower [] 0 source.2
  ⟨source.1.1, target.1.1, ⟨[⟨"A", [], a.1.1, none⟩, ⟨"B", [], b.1.1, none⟩]⟩, target.2⟩

theorem chains_eq : chains.source = ⟨12⟩ ∧ chains.target = ⟨16⟩ ∧ chains.store.size = 19 ∧
    chains.environment = ⟨[⟨"A", [], ⟨13⟩, none⟩, ⟨"B", [], ⟨18⟩, none⟩]⟩ := by
  refine ⟨?_, ?_, ?_, ?_⟩ <;> cbv

theorem formed_chains : chains.store.Formed := by
  have hscope : ∀ s : Store, s.Knows ([] : TypeScope) := by
    rintro s t ⟨b, hb, -⟩
    cases hb
  exact (formed_and_tidy_of_reachable ⟨.byAge, .tail (.tail (.tail (.single
    (.lower _ 0 (hscope _))) (.lower _ 0 (hscope _))) (.lower _ 0 (hscope _)))
      (.lower _ 0 (hscope _))⟩).1

/-- What the checker does with the types that the references stand for. -/
theorem chains_run :
    let nested := Setting.nested ⟨chains.environment, .standard⟩ 0
    let x := Check.resolve nested chains.source (started .standard chains.source chains.target) chains.store
    let y := Check.resolve nested chains.target x.1.2 x.2
    let z := Check.subtypeAt nested 99 x.1.1 y.1.1 y.1.2 y.2
    x.1.1 = ⟨13⟩ ∧ z.1.1 = true ∧ z.1.2.diagnostics = #[] := by
  refine ⟨?_, ?_, ?_⟩
  · cbv
  · cbv
  · cbv

theorem known_chains : chains.environment.Known chains.store := by
  obtain ⟨-, -, hsize, henvironment⟩ := chains_eq
  rw [henvironment]
  constructor
  · intro a ha
    rw [hsize]
    simp only [List.mem_cons, List.not_mem_nil, or_false] at ha
    rcases ha with rfl | rfl <;> decide
  · intro a ha p hp
    simp only [List.mem_cons, List.not_mem_nil, or_false] at ha
    rcases ha with rfl | rfl <;> cases hp

/-- The pair of the references is under way when the last member of the union asks for it again, and
the second member finds the failure of `string` against `number` remembered. -/
theorem isAssignable_iff_consistent_chains :
    let setting : Setting := ⟨chains.environment, .standard⟩
    ∃ c s, Check.isAssignable (setting.nested 0) chains.source chains.target (.fresh .standard)
        chains.store = ((true, c), s) ∧ c.diagnostics = #[] ∧
      ∃ R : Relation, R chains.source chains.target ∧ Consistent ⟨s, setting.nested 0, false⟩ R := by
  intro setting
  obtain ⟨hsource, htarget, hsize, -⟩ := chains_eq
  obtain ⟨hresolved, htrue, hquiet⟩ := chains_run
  have hrun := isAssignable_run_resolved (by rw [hsource, htarget]; decide)
    (by rw [hsource]; decide) (by rw [htarget]; decide) rfl rfl
    (by rw [hresolved, hsource]; decide) htrue
  refine ⟨_, _, hrun, hquiet, ?_⟩
  have hknown : setting.environment.Known chains.store := known_chains
  exact (isAssignable_iff_consistent formed_chains hknown
    (by rw [hsource, hsize]; decide) (by rw [htarget, hsize]; decide) hrun (fun d hd => by
      rw [hquiet] at hd
      simp at hd) (.refl _)).mp rfl

end Assignability

end TypeResolution
