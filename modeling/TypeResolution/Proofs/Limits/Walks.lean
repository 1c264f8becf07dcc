import Mathlib.Data.Finset.Card
import TypeResolution.Recursion

/-!
What a guard knows of its walk. Its nesting, its active keys, its count of steps and its flag are
kept apart, and each is determined by what has happened so far: the nesting by the keys that were let
in and not left since, the flag by the answers that were given.
-/

namespace TypeResolution.Recursion

variable {κ : Type}

/-- What was asked of a guard, and what it answered. -/
inductive Event (κ : Type) where
  | enter (key : κ) (answer : Answer)
  | leave (key : κ)
  deriving DecidableEq, Repr

namespace Event

/-- The keys that were let in and have not been left since. The latest event comes first. -/
def active [DecidableEq κ] : List (Event κ) → Finset κ
  | [] => ∅
  | .enter key .entered :: past => insert key (active past)
  | .enter _ _ :: past => active past
  | .leave key :: past => (active past).erase key

def isEnter : Event κ → Bool
  | .enter _ _ => true
  | .leave _ => false

/-- How often a key was asked for. -/
def steps (past : List (Event κ)) : Nat := past.countP isEnter

/-- Some answer was that a limit is exceeded. -/
def Exceeded (past : List (Event κ)) : Prop :=
  ∃ key, .enter key .depthExceeded ∈ past ∨ .enter key .iterationExceeded ∈ past

variable {past : List (Event κ)} {key : κ}

theorem steps_enter {answer : Answer} : steps (.enter key answer :: past) = steps past + 1 :=
  List.countP_cons_of_pos rfl

theorem steps_leave : steps (.leave key :: past) = steps past :=
  List.countP_cons_of_neg (by simp [isEnter])

theorem active_enter_of_ne [DecidableEq κ] {answer : Answer} (h : answer ≠ .entered) :
    active (.enter key answer :: past) = active past := by
  cases answer with
  | entered => exact absurd rfl h
  | _ => rfl

theorem exceeded_enter {answer : Answer} : Exceeded (.enter key answer :: past) ↔
    (answer = .depthExceeded ∨ answer = .iterationExceeded) ∨ Exceeded past := by
  simp only [Exceeded, List.mem_cons, Event.enter.injEq]
  constructor
  · rintro ⟨k, (⟨-, rfl⟩ | h) | (⟨-, rfl⟩ | h)⟩
    · exact .inl (.inl rfl)
    · exact .inr ⟨k, .inl h⟩
    · exact .inl (.inr rfl)
    · exact .inr ⟨k, .inr h⟩
  · rintro ((rfl | rfl) | ⟨k, h | h⟩)
    · exact ⟨key, .inl (.inl ⟨rfl, rfl⟩)⟩
    · exact ⟨key, .inr (.inl ⟨rfl, rfl⟩)⟩
    · exact ⟨k, .inl (.inr h)⟩
    · exact ⟨k, .inr (.inr h)⟩

theorem exceeded_leave : Exceeded (.leave key :: past) ↔ Exceeded past := by
  simp [Exceeded]

end Event

/-- As many steps were taken as the budget allows. The count of steps stops at the largest word, so a
budget of that size is never used up. -/
def UsedUp (maxIterations : UInt32) (steps : Nat) : Prop :=
  maxIterations.toNat ≤ steps ∧ maxIterations.toNat < UInt32.size - 1

namespace Guard

variable [DecidableEq κ]

/-- The walks of a guard. Keys are asked for in any order, and only active keys are left. -/
inductive Walk (start : Guard κ) : List (Event κ) → Guard κ → Prop
  | start : Walk start [] start
  | enter {past : List (Event κ)} {g : Guard κ} (key : κ) : Walk start past g →
      Walk start (.enter key (g.enter key).1 :: past) (g.enter key).2
  | leave {past : List (Event κ)} {g : Guard κ} {key : κ} : Walk start past g →
      key ∈ Event.active past → Walk start (.leave key :: past) (g.leave key)

/-- What a guard answers, with the guard that answers next. -/
inductive Answers (g : Guard κ) (key : κ) : Answer × Guard κ → Prop
  | iterationExceeded : g.maxIterations < g.tick.iterations →
      Answers g key (.iterationExceeded, { g.tick with exceeded := true })
  | depthExceeded : g.tick.iterations ≤ g.maxIterations → g.maxDepth ≤ g.depth →
      Answers g key (.depthExceeded, { g.tick with exceeded := true })
  | cycle : g.tick.iterations ≤ g.maxIterations → g.depth < g.maxDepth → key ∈ g.active →
      Answers g key (.cycle, g.tick)
  | entered : g.tick.iterations ≤ g.maxIterations → g.depth < g.maxDepth → key ∉ g.active →
      Answers g key (.entered, { g.tick with active := key :: g.active, depth := g.depth + 1 })

theorem answers_enter (g : Guard κ) (key : κ) : Answers g key (g.enter key) := by
  unfold enter
  dsimp only
  split
  · exact .iterationExceeded ‹_›
  rename_i hsteps
  split
  · exact .depthExceeded (Nat.le_of_not_lt hsteps) ‹_›
  rename_i hdepth
  split
  · exact .cycle (Nat.le_of_not_lt hsteps) (Nat.lt_of_not_le hdepth) ‹_›
  · exact .entered (Nat.le_of_not_lt hsteps) (Nat.lt_of_not_le hdepth) ‹_›

theorem enter_eq_entered_iff (g : Guard κ) (key : κ) : (g.enter key).1 = .entered ↔
    g.tick.iterations ≤ g.maxIterations ∧ g.depth < g.maxDepth ∧ key ∉ g.active := by
  have h := answers_enter g key
  generalize g.enter key = r at h
  cases h with
  | iterationExceeded hsteps => simp [Nat.not_le_of_lt hsteps]
  | depthExceeded _ hdepth => simp [Nat.not_lt_of_le hdepth]
  | cycle _ _ hactive => simp [hactive]
  | entered hsteps hdepth hactive => simp [hsteps, hdepth, hactive]

theorem enter_of_ne_entered {g : Guard κ} {key : κ} (hne : (g.enter key).1 ≠ .entered) :
    ∃ exceeded, (g.enter key).2 = { g.tick with exceeded } := by
  have h := answers_enter g key
  generalize g.enter key = r at h hne
  cases h with
  | iterationExceeded _ | depthExceeded _ _ => exact ⟨true, rfl⟩
  | cycle _ _ _ => exact ⟨g.exceeded, rfl⟩
  | entered _ _ _ => exact absurd rfl hne

/-- What a guard has recorded of a walk under some limits. -/
structure Records (maxDepth maxIterations : UInt32) (base : Nat) (past : List (Event κ))
    (g : Guard κ) : Prop where
  unique : g.active.Nodup
  active : g.active.toFinset = Event.active past
  depth : g.depth = base + g.active.length
  depth_le : g.depth ≤ max maxDepth.toNat base
  baseDepth : g.baseDepth = base
  iterations : g.iterations = min (Event.steps past) (UInt32.size - 1)
  maxDepth_eq : g.maxDepth = maxDepth.toNat
  maxIterations_eq : g.maxIterations = maxIterations.toNat
  exceeded : g.exceeded = true ↔ Event.Exceeded past

namespace Records

variable {maxDepth maxIterations : UInt32} {base : Nat} {past : List (Event κ)} {g : Guard κ}
  {key : κ}

theorem mem_active (h : Records maxDepth maxIterations base past g) :
    key ∈ g.active ↔ key ∈ Event.active past := by
  rw [← h.active, List.mem_toFinset]

theorem card_active (h : Records maxDepth maxIterations base past g) :
    (Event.active past).card = g.active.length := by
  rw [← h.active, List.toFinset_card_of_nodup h.unique]

/-- One step more is counted before anything else is looked at. -/
theorem iterations_tick (h : Records maxDepth maxIterations base past g) :
    g.tick.iterations = min (Event.steps past + 1) (UInt32.size - 1) := by
  have hi := h.iterations
  simp only [tick]
  omega

theorem iterations_tick_le_iff (h : Records maxDepth maxIterations base past g) :
    g.tick.iterations ≤ g.maxIterations ↔ ¬UsedUp maxIterations (Event.steps past) := by
  rw [h.iterations_tick, h.maxIterations_eq, UsedUp]
  omega

theorem start : Records maxDepth maxIterations base []
    (ofLimits maxDepth maxIterations base : Guard κ) where
  unique := .nil
  active := rfl
  depth := rfl
  depth_le := Nat.le_max_right _ _
  baseDepth := rfl
  iterations := rfl
  maxDepth_eq := rfl
  maxIterations_eq := rfl
  exceeded := by simp [ofLimits, Event.Exceeded]

/-- A refused key changes the count of steps and the flag only. -/
theorem refuse (h : Records maxDepth maxIterations base past g) {answer : Answer} (exceeded : Bool)
    (hne : answer ≠ .entered) (hexceeded : exceeded = true ↔
      (answer = .depthExceeded ∨ answer = .iterationExceeded) ∨ g.exceeded = true) :
    Records maxDepth maxIterations base (.enter key answer :: past) { g.tick with exceeded } where
  unique := h.unique
  active := by rw [Event.active_enter_of_ne hne]; exact h.active
  depth := h.depth
  depth_le := h.depth_le
  baseDepth := h.baseDepth
  iterations := by rw [Event.steps_enter]; exact h.iterations_tick
  maxDepth_eq := h.maxDepth_eq
  maxIterations_eq := h.maxIterations_eq
  exceeded := by rw [Event.exceeded_enter, ← h.exceeded]; exact hexceeded

theorem enter (h : Records maxDepth maxIterations base past g) (key : κ) :
    Records maxDepth maxIterations base (.enter key (g.enter key).1 :: past) (g.enter key).2 := by
  have hanswer := answers_enter g key
  generalize g.enter key = r at hanswer
  cases hanswer with
  | iterationExceeded _ => exact h.refuse true nofun (by simp)
  | depthExceeded _ _ => exact h.refuse true nofun (by simp)
  | cycle _ _ _ => exact h.refuse g.exceeded nofun (by simp)
  | entered _ hdepth hactive =>
      have hd := h.depth
      have hle := h.depth_le
      have hmax := h.maxDepth_eq
      exact {
        unique := List.nodup_cons.mpr ⟨hactive, h.unique⟩
        active := by rw [List.toFinset_cons, h.active]; rfl
        depth := by simp only [List.length_cons]; omega
        depth_le := by dsimp only; omega
        baseDepth := h.baseDepth
        iterations := by rw [Event.steps_enter]; exact h.iterations_tick
        maxDepth_eq := hmax
        maxIterations_eq := h.maxIterations_eq
        exceeded := by rw [Event.exceeded_enter, ← h.exceeded]; simp [tick] }

theorem leave (h : Records maxDepth maxIterations base past g) (hkey : key ∈ Event.active past) :
    Records maxDepth maxIterations base (.leave key :: past) (g.leave key) := by
  have hmem : key ∈ g.active := h.mem_active.mpr hkey
  have hpos : 0 < g.active.length := List.length_pos_of_mem hmem
  have hlength : (g.active.erase key).length = g.active.length - 1 := List.length_erase_of_mem hmem
  have hd := h.depth
  have hle := h.depth_le
  have hb := h.baseDepth
  exact {
    unique := h.unique.erase key
    active := by
      ext k
      simp only [Guard.leave, List.mem_toFinset, h.unique.mem_erase_iff, h.mem_active, Event.active,
        Finset.mem_erase]
    -- an active key stands for one level above the base, so the bound by the base is not felt
    depth := by simp only [Guard.leave, hlength]; omega
    depth_le := by simp only [Guard.leave]; omega
    baseDepth := hb
    iterations := by rw [Event.steps_leave]; exact h.iterations
    maxDepth_eq := h.maxDepth_eq
    maxIterations_eq := h.maxIterations_eq
    exceeded := by rw [Event.exceeded_leave]; exact h.exceeded }

end Records

section walk

variable {maxDepth maxIterations : UInt32} {base : Nat} {past : List (Event κ)} {g : Guard κ}

theorem Walk.records (h : Walk (ofLimits maxDepth maxIterations base) past g) :
    Records maxDepth maxIterations base past g := by
  induction h with
  | start => exact .start
  | enter key _ ih => exact ih.enter key
  | leave _ hkey ih => exact ih.leave hkey

/-- Nesting counts the active keys, a key is let in as long as nothing speaks against it and
otherwise nothing but the count of steps and the flag changes, and the flag tells that a limit was
exceeded. -/
theorem Walk.counts_active (h : Walk (ofLimits maxDepth maxIterations base) past g) :
    (∀ key, key ∈ g.active ↔ key ∈ Event.active past) ∧
    g.depth = base + (Event.active past).card ∧
    g.depth ≤ max maxDepth.toNat base ∧
    (∀ key, (g.enter key).1 = .entered ↔
      ¬UsedUp maxIterations (Event.steps past) ∧ g.depth < maxDepth.toNat ∧
        key ∉ Event.active past) ∧
    (∀ key, (g.enter key).1 ≠ .entered → ∃ exceeded, (g.enter key).2 =
      { g with iterations := min (Event.steps past + 1) (UInt32.size - 1), exceeded }) ∧
    (g.exceeded = true ↔ ∃ key,
      .enter key .depthExceeded ∈ past ∨ .enter key .iterationExceeded ∈ past) := by
  have hrec := h.records
  refine ⟨fun _ => hrec.mem_active, ?_, hrec.depth_le, fun key => ?_, fun key hne => ?_,
    hrec.exceeded⟩
  · rw [hrec.depth, hrec.card_active]
  · rw [enter_eq_entered_iff, hrec.iterations_tick_le_iff, hrec.maxDepth_eq, hrec.mem_active]
  · obtain ⟨exceeded, heq⟩ := enter_of_ne_entered hne
    refine ⟨exceeded, ?_⟩
    rw [heq, ← hrec.iterations_tick]
    rfl

/-- Above the base 1, the key 1 is asked for twice, 2 once, and 3 is too deep; then 1 is left
before 2, and the budget of 4 steps is used up. -/
theorem Walk.counts_active_crossed :
    let past : List (Event Nat) := [.leave 1, .enter 3 .depthExceeded, .enter 2 .entered,
      .enter 1 .cycle, .enter 1 .entered]
    let g : Guard Nat := ⟨[2], 2, 1, 4, 3, 4, true⟩
    Walk (ofLimits 3 4 1) past g ∧
      (1 ∈ g.active ↔ 1 ∈ Event.active past) ∧
      g.depth = 1 + (Event.active past).card ∧ g.depth ≤ max 3 1 ∧
      ((g.enter 1).1 = .entered ↔ ¬UsedUp 4 4 ∧ 2 < 3 ∧ 1 ∉ Event.active past) ∧
      (∃ exceeded, (g.enter 1).2 = { g with iterations := 5, exceeded }) ∧
      (g.exceeded = true ↔ ∃ key,
        .enter key .depthExceeded ∈ past ∨ .enter key .iterationExceeded ∈ past) := by
  intro past g
  have hwalk : Walk (ofLimits 3 4 1) past g :=
    .leave (.enter 3 (.enter 2 (.enter 1 (.enter 1 .start)))) (by decide)
  obtain ⟨hactive, hdepth, hle, hentered, hrefused, hexceeded⟩ := hwalk.counts_active
  exact ⟨hwalk, hactive 1, hdepth, hle, hentered 1, hrefused 1 (by decide), hexceeded⟩

end walk

end Guard

end TypeResolution.Recursion
