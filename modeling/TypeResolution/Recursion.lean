import TypeResolution.Limits

/-!
The recursion guard. A walk over a type graph enters a key before it works on it and leaves it
afterwards. The guard refuses a key that is already active, a nesting that is too deep, and a walk
that takes too many steps.
-/

namespace TypeResolution.Recursion

/-- Which bounds a walk runs under. -/
inductive Profile where
  | subtypeCheck
  | typeEvaluation
  | custom (maxDepth maxIterations : UInt32)
  deriving DecidableEq, Repr

namespace Profile

def maxDepth : Profile → UInt32
  | .subtypeCheck => Limits.subtypeDepth
  | .typeEvaluation => Limits.evaluationDepth
  | .custom d _ => d

def maxIterations : Profile → UInt32
  | .subtypeCheck => Limits.iterations
  | .typeEvaluation => Limits.iterations
  | .custom _ n => n

end Profile

inductive Answer where
  | entered
  | cycle
  | depthExceeded
  | iterationExceeded
  deriving DecidableEq, Repr

namespace Answer

def name : Answer → String
  | .entered => "Entered"
  | .cycle => "Cycle"
  | .depthExceeded => "DepthExceeded"
  | .iterationExceeded => "IterationExceeded"

def isEntered (a : Answer) : Bool := a = .entered

end Answer

/-- The state of one walk: its active keys, the latest first, and what it has used up. -/
structure Guard (κ : Type) where
  active : List κ
  depth : Nat
  baseDepth : Nat
  iterations : Nat
  maxDepth : Nat
  maxIterations : Nat
  exceeded : Bool
  deriving Repr

namespace Guard

variable {κ : Type}

/-- A walk that starts at nesting `baseDepth`, as one that a deeper walk asks for does. -/
def ofLimits (maxDepth maxIterations : UInt32) (baseDepth : Nat) : Guard κ where
  active := []
  depth := baseDepth
  baseDepth := baseDepth
  iterations := 0
  maxDepth := maxDepth.toNat
  maxIterations := maxIterations.toNat
  exceeded := false

def ofProfile (p : Profile) (baseDepth : Nat) : Guard κ :=
  ofLimits p.maxDepth p.maxIterations baseDepth

/-- One more step; the count stops at the largest word. -/
def tick (g : Guard κ) : Guard κ :=
  { g with iterations := min (g.iterations + 1) (UInt32.size - 1) }

/-- Asks to work on `key`. The step budget is looked at first, then the nesting, then the
active keys. -/
def enter [DecidableEq κ] (g : Guard κ) (key : κ) : Answer × Guard κ :=
  let g := g.tick
  if g.maxIterations < g.iterations then
    (.iterationExceeded, { g with exceeded := true })
  else if g.maxDepth ≤ g.depth then
    (.depthExceeded, { g with exceeded := true })
  else if key ∈ g.active then
    (.cycle, g)
  else
    (.entered, { g with active := key :: g.active, depth := g.depth + 1 })

def leave [DecidableEq κ] (g : Guard κ) (key : κ) : Guard κ :=
  { g with active := g.active.erase key, depth := max (g.depth - 1) g.baseDepth }

theorem leave_of_enter [DecidableEq κ] {g : Guard κ} {key : κ} (h : g.baseDepth ≤ g.depth)
    (he : (g.enter key).1 = .entered) : (g.enter key).2.leave key = g.tick := by
  revert he
  unfold enter
  simp only
  split
  · simp
  split
  · simp
  split
  · simp
  · simp [leave, tick, Nat.max_eq_left h]

end Guard

end TypeResolution.Recursion
