import TypeResolution.Environment
import TypeResolution.Options
import TypeResolution.Recursion
import TypeResolution.Type.Normal

/-!
The state of an evaluation. An evaluator remembers what it has evaluated, which types and aliases
it is working on, and what it has reported. It polls for cancellation, which is its only way out
early; everything it is working on is put back on every way out.
-/

namespace TypeResolution

/-- What stays the same during a request. -/
structure Setting where
  environment : Environment
  options : Options

/-- The request was cancelled. -/
inductive Cancelled where
  | mk
  deriving DecidableEq, Repr

def Cancelled.message : Cancelled → String
  | .mk => "type resolution was cancelled"

/-- The expansion of an alias that is in progress. -/
structure Frame where
  name : String
  args : List TypeId
  /-- How many objects, arrays and functions had been entered when it started. -/
  productive : Nat
  deriving DecidableEq, Repr

/-- The state of an evaluator. -/
structure Evaluator where
  guard : Recursion.Guard TypeId
  cache : Std.HashMap TypeId TypeId
  /-- Expansions in progress, the latest first. -/
  frames : List Frame
  /-- Objects, arrays and functions that have been entered. -/
  productive : Nat
  reportedCycles : List String
  depthReported : Bool
  diagnostics : Array Diagnostic
  /-- How many polls pass before the request is cancelled; none if it never is. -/
  patience : Option Nat

namespace Evaluator

/-- An evaluator that starts at nesting `baseDepth`. -/
def fresh (o : Options) (baseDepth : Nat) (patience : Option Nat) : Evaluator where
  guard := .ofLimits o.maxEvaluationDepth o.maxIterations baseDepth
  cache := {}
  frames := []
  productive := 0
  reportedCycles := []
  depthReported := false
  diagnostics := #[]
  patience := patience

end Evaluator

abbrev Eval := ExceptT Cancelled (StateT Evaluator Build)

namespace Eval

/-- Adds a diagnostic unless the same one is there. -/
def report (d : Diagnostic) : Eval Unit :=
  modify fun e => if e.diagnostics.contains d then e else { e with diagnostics := e.diagnostics.push d }

def reportAll (ds : Array Diagnostic) : Eval Unit := ds.forM report

/-- Gives up when the request is cancelled. -/
def poll : Eval Unit := do
  match (← get).patience with
  | none => pure ()
  | some 0 => throw .mk
  | some (n + 1) => modify ({ · with patience := some n })

/-- Runs a step between two changes of the state; the second one is made on every way out. -/
def between {α : Type} (before after : Evaluator → Evaluator) (step : Eval α) : Eval α :=
  fun e => do
    let (result, e) ← step (before e)
    return (result, after e)

/-- Runs a step inside an object, array or function. -/
def productively {α : Type} (step : Eval α) : Eval α :=
  between (fun e => { e with productive := e.productive + 1 })
    (fun e => { e with productive := e.productive - 1 }) step

/-- Runs a step during the expansion of an alias. -/
def expanding {α : Type} (name : String) (args : List TypeId) (step : Eval α) : Eval α :=
  between (fun e => { e with frames := ⟨name, args, e.productive⟩ :: e.frames })
    (fun e => { e with frames := e.frames.tail }) step

/-- Asks the guard to work on a type. -/
def enter (t : TypeId) : Eval Recursion.Answer :=
  modifyGet fun e =>
    let (answer, guard) := e.guard.enter t
    (answer, { e with guard := guard })

/-- Runs a step on a type that was entered and leaves it afterwards. -/
def leaving {α : Type} (t : TypeId) (step : Eval α) : Eval α :=
  between id (fun e => { e with guard := e.guard.leave t }) step

def remember (t result : TypeId) : Eval Unit :=
  modify fun e => { e with cache := e.cache.insert t result }

def origin? (t : TypeId) : Eval (Option SourceTag) := Build.origin? (.type t)

/-- Runs a computation that reports. -/
def reporting {α : Type} (step : Reporting α) : Eval α := do
  let (a, ds) ← (step.run #[] : Build _)
  reportAll ds
  return a

def union (members : List TypeId) : Eval TypeId := Build.union members

def intersection (site : Option SourceTag) (members : List TypeId) : Eval TypeId :=
  reporting (Reporting.intersection site members)

def reportDepthExceeded (t : TypeId) : Eval Unit := do
  unless (← get).depthReported do
    modify ({ · with depthReported := true })
    let limit := (← get).guard.maxDepth
    report ((Diagnostic.of .evaluationDepthExceeded [toString limit]).withLocation (← origin? t))

end Eval

end TypeResolution
