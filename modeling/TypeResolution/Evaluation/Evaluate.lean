import TypeResolution.Evaluation.IndexAccess
import TypeResolution.Evaluation.Mapped
import TypeResolution.Evaluation.Texts

/-!
Evaluation: aliases are expanded, conditional, mapped, access and template types are resolved, and
unions and intersections take their normal form. A reference to an alias under expansion stays as
it is when an object, array or function stands in between; otherwise the alias is cyclic.
-/

namespace TypeResolution

namespace Eval

/-- An alias under expansion is reached again. -/
def reenterAlias (frame : Frame) (lazy : TypeId) (site : Option SourceTag) : Eval TypeId := do
  let e ← get
  if frame.productive < e.productive then
    return lazy
  unless e.reportedCycles.contains frame.name do
    modify fun e => { e with reportedCycles := frame.name :: e.reportedCycles }
    report ((Diagnostic.of .cyclicTypeAlias [frame.name]).withLocation site)
  return .any

/-- A type that is being evaluated is reached again; only references are treated specially. -/
def reenterCycle (setting : Setting) (t : TypeId) : Eval TypeId := do
  match ← Build.node t with
  | .reference name _ =>
      match (← get).frames.find? (·.name = name) with
      | none => return t
      | some frame =>
          let site := ((setting.environment.get? name).bind (·.origin)).or (← origin? t)
          reenterAlias frame t site
  | _ => return t

/-- Expands a reference. -/
def reference (inner : TypeId → Eval TypeId) (setting : Setting) (t : TypeId) (name : String)
    (args : List TypeId) : Eval TypeId := do
  match setting.environment.get? name with
  | none =>
      report ((Diagnostic.of .unresolvedReference [name]).withLocation (← origin? t))
      return .unknown
  | some a =>
      let args ← args.mapM inner
      match (← get).frames.find? fun f => f.name = name && f.args = args with
      | some frame =>
          let lazy ← Build.reference name args
          reenterAlias frame lazy (a.origin.or (← origin? t))
      | none =>
          let body ← Build.instantiate (.ofArgs a.params args) a.body
          expanding name args (inner body)

def object (inner : TypeId → Eval TypeId) (t : TypeId) (shape : ObjectShape) : Eval TypeId := do
  let fields ← shape.fields.mapM fun f => return { f with type := ← inner f.type }
  let index ← shape.stringIndex.mapM inner
  Normal.rebuildObject t shape ⟨fields, index⟩

def function (inner : TypeId → Eval TypeId) (shape : FunctionShape) : Eval TypeId := do
  let params ← shape.params.mapM inner
  let result ← inner shape.result
  Build.function params result

/-- Evaluates a node whose components are evaluated by `inner`. -/
def node (inner : TypeId → Eval TypeId) (setting : Setting) (t : TypeId) : Node → Eval TypeId
  | .error | .intrinsic _ | .literal _ | .param _ => return t
  | .union members => do union (← members.mapM inner)
  | .intersection members => do
      let members ← members.mapM inner
      intersection (← origin? t) members
  | .object shape => productively (object inner t shape)
  | .function shape => productively (function inner shape)
  | .array element => do Build.array (← productively (inner element))
  | .reference name args => reference inner setting t name args
  | .conditional c => conditional inner setting t c
  | .mapped m => mapped inner m
  | .indexAccess object key => indexAccess inner t object key
  | .template spans => template inner spans
  | .stringMap kind arg => stringMap inner kind arg

/-- Evaluates a type unless its result is known. Once a limit was hit, types stay as they are and
nothing more is remembered. -/
def guarded (work : TypeId → Node → Eval TypeId) (setting : Setting) (t : TypeId) :
    Eval TypeId := do
  if t.isFixed then
    return t
  poll
  if let some known := (← get).cache[t]? then
    return known
  if (← get).guard.exceeded then
    return t
  match ← enter t with
  | .entered =>
      let n ← Build.node t
      let result ← leaving t (work t n)
      unless (← get).guard.exceeded do
        remember t result
      return result
  | .cycle => reenterCycle setting t
  | _ =>
      reportDepthExceeded t
      return t

/-- Evaluates a type when `depth` more nested evaluations can be entered. -/
def evaluateAt (setting : Setting) : Nat → TypeId → Eval TypeId
  | 0 => guarded (fun t _ => return t) setting
  | depth + 1 => guarded (node (evaluateAt setting depth) setting) setting

/-- How many nested evaluations can be entered from the present state. -/
def remaining : Eval Nat := do
  let guard := (← get).guard
  return guard.maxDepth - guard.depth

/-- Evaluates a type. -/
def evaluate (setting : Setting) (t : TypeId) : Eval TypeId := do
  evaluateAt setting (← remaining) t

/-- Evaluates a type and normalizes the result. -/
def evaluateNormalized (setting : Setting) (t : TypeId) : Eval TypeId := do
  let evaluated ← evaluate setting t
  reporting (Reporting.normalize (← origin? t) evaluated)

/-- Evaluates a conditional under a substitution. -/
def evaluateConditional (setting : Setting) (c : Conditional) (σ : Substitution) :
    Eval TypeId := do
  let raw ← Build.conditional c
  let instantiated ← Build.instantiate σ raw
  evaluate setting instantiated

/-- Evaluates a mapped type under a substitution. -/
def evaluateMapped (setting : Setting) (m : Mapped) (σ : Substitution) : Eval TypeId := do
  let raw ← Build.mapped m
  let instantiated ← Build.instantiate σ raw
  evaluate setting instantiated

end Eval

/-- Nested evaluations that start at nesting `depth`. -/
def Setting.nested (setting : Setting) (depth : Nat) : Check.Nested :=
  ⟨Eval.evaluateAt setting (setting.options.maxEvaluationDepth.toNat - depth),
    .fresh setting.options depth none⟩

end TypeResolution
