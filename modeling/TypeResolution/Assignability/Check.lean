import Std.Data.HashSet
import TypeResolution.Assignability.Failure
import TypeResolution.Evaluation.State
import TypeResolution.Type.Template

/-!
Structural assignability: whether a value of the source type is usable where the target type is
expected. Types that only evaluation can resolve are evaluated first. A pair that is being checked
counts as related, so recursive types are compared coinductively; pairs that failed are remembered.
-/

namespace TypeResolution

/-- The state of a checker. -/
structure Checker where
  guard : Recursion.Guard (TypeId × TypeId)
  excessPropertyCheck : Bool
  failures : Std.HashSet (TypeId × TypeId)
  /-- Why the last failing check failed. -/
  failure : Option Failure
  depthReported : Bool
  diagnostics : Array Diagnostic

namespace Checker

def fresh (o : Options) : Checker where
  guard := .ofLimits o.maxSubtypeDepth o.maxIterations 0
  excessPropertyCheck := o.excessPropertyCheck
  failures := {}
  failure := none
  depthReported := false
  diagnostics := #[]

/-- Pairs that failed are forgotten when the rule changes. -/
def setExcessPropertyCheck (c : Checker) (enabled : Bool) : Checker :=
  if c.excessPropertyCheck = enabled then c
  else { c with excessPropertyCheck := enabled, failures := {} }

end Checker

abbrev Check := StateT Checker Build

namespace Check

def report (d : Diagnostic) : Check Unit :=
  modify fun c => if c.diagnostics.contains d then c else { c with diagnostics := c.diagnostics.push d }

/-- The first failure stays. -/
def fail (reason : Failure) : Check Bool := do
  modify fun c => { c with failure := c.failure.or (some reason) }
  return false

/-- A failure that takes the place of those inside it. -/
def failWith (reason : Failure) : Check Bool := do
  modify ({ · with failure := some reason })
  return false

def clearFailure : Check (Option Failure) :=
  modifyGet fun c => (c.failure, { c with failure := none })

def restoreFailure (saved : Option Failure) : Check Unit :=
  modify ({ · with failure := saved })

def reportDepthExceeded (source : TypeId) : Check Unit := do
  unless (← get).depthReported do
    modify ({ · with depthReported := true })
    let limit := (← get).guard.maxDepth
    let site ← Build.origin? (.type source)
    report ((Diagnostic.of .evaluationDepthExceeded [toString limit]).withLocation site)

/-- How a nested evaluation is made: the evaluation itself and the evaluator it starts with. -/
structure Nested where
  evaluate : TypeId → Eval TypeId
  start : Evaluator

/-- Evaluates a type that cannot be compared as it is. -/
def resolve (nested : Nested) (t : TypeId) : Check TypeId := do
  if (← Build.node t).isMeta then
    let (result, e) ← (nested.evaluate t nested.start : Build _)
    e.diagnostics.forM report
    match result with
    | .ok t => return t
    | .error _ => return t
  else
    return t

/-- How the components of a pair are checked. -/
abbrev Inner := TypeId → TypeId → Check Bool

/-- Everything but the nullish types and `unknown` fits the empty object type. -/
def againstEmptyObject (source target : TypeId) : Check Bool := do
  if (← getThe Store).isEmptyObject target && !source.isNullish && source ≠ .unknown then
    return true
  else
    fail (.typeMismatch source target)

/-- Some member of the union must take the source. -/
def unionTarget (inner : Inner) (source : TypeId) (members : List TypeId) : Check Bool := do
  if members.contains source then
    return true
  let saved ← clearFailure
  let found ← members.anyM (inner source)
  restoreFailure saved
  if found then
    return true
  else
    fail (.noMatchingUnionMember source)

/-- Some member of the intersection must fit the target. -/
def intersectionSource (inner : Inner) (source target : TypeId) (members : List TypeId) :
    Check Bool := do
  let saved ← clearFailure
  if ← members.anyM (inner · target) then
    restoreFailure saved
    return true
  else
    fail (.typeMismatch source target)

/-- A field of the target against the source; the outermost field names the failure. -/
def field (inner : Inner) (source : ObjectShape) (f : Field) : Check Bool := do
  match source.find? f.name with
  | some g =>
      if g.optional && !f.optional then
        fail (.optionalProperty f.name)
      else if ← inner g.type f.type then
        return true
      else
        failWith (.propertyTypeMismatch f.name g.type f.type)
  | none =>
      if f.optional then return true else fail (.missingProperty f.name)

/-- All that the source declares must fit the index signature of the target. -/
def index (inner : Inner) (source : ObjectShape) (target : TypeId) : Check Bool := do
  let fields ← source.fields.allM fun g => do
    if ← inner g.type target then return true
    else fail (.propertyTypeMismatch g.name g.type target)
  if !fields then
    return false
  match source.stringIndex with
  | none => return true
  | some t =>
      if ← inner t target then return true else fail (.typeMismatch t target)

def excess (source target : ObjectShape) : Check Bool := do
  match source.fields.find? fun g => (target.find? g.name).isNone with
  | some g => fail (.excessProperty g.name)
  | none => return true

def object (inner : Inner) (source target : ObjectShape) : Check Bool := do
  if ← target.fields.allM (field inner source) then
    match target.stringIndex with
    | some t => index inner source t
    | none =>
        if (← get).excessPropertyCheck then excess source target else return true
  else
    return false

/-- Parameters are compared the other way round; a `void` result takes any result. -/
def function (inner : Inner) (source target : FunctionShape) : Check Bool := do
  if target.params.length < source.params.length then
    fail (.tooManyParameters source.params.length target.params.length)
  else
    let params ← (source.params.zip target.params).allM fun (s, t) => do
      if ← inner t s then return true else fail (.typeMismatch t s)
    if !params then
      return false
    else if target.result = .void then
      return true
    else if ← inner source.result target.result then
      return true
    else
      failWith (.returnTypeMismatch source.result target.result)

/-- A literal fits its primitive, and a text fits a template that describes it. -/
def literal (source target : TypeId) (value : Literal) : Check Bool := do
  if value.primitive = target then
    return true
  let s ← getThe Store
  let described := match value, s.node target with
    | .string text, .template spans => Template.describes s spans text
    | _, _ => false
  if described then return true else againstEmptyObject source target

/-- Compares two types that are neither unions nor intersections. -/
def shapes (inner : Inner) (source target : TypeId) : Node → Node → Check Bool
  | .literal value, _ => literal source target value
  | .intrinsic kind, _ =>
      if kind = .undefined && target = .void then return true
      else againstEmptyObject source target
  | .template _, _ =>
      if target = .string then return true else fail (.typeMismatch source target)
  | .param info, _ => do
      let constraint := info.constraint.getD .unknown
      if constraint = .unknown then
        fail (.typeMismatch source target)
      else if ← inner constraint target then
        return true
      else
        fail (.typeMismatch source target)
  | .object s, .object t => object inner s t
  | .function s, .function t => function inner s t
  | .array s, .array t => do
      if ← inner s t then return true else fail (.typeMismatch source target)
  | .array _, _ | .function _, _ => againstEmptyObject source target
  | _, _ => fail (.typeMismatch source target)

/-- Compares two types that evaluation leaves as they are. -/
def structures (inner : Inner) (source target : TypeId) : Check Bool := do
  let sourceNode ← Build.node source
  let targetNode ← Build.node target
  match sourceNode, targetNode with
  | .union members, _ => members.allM (inner · target)
  | .intrinsic .boolean, .union _ =>
      if ← inner .trueLiteral target then inner .falseLiteral target else return false
  | _, .union members => unionTarget inner source members
  | _, .intersection members => members.allM (inner source)
  | .intersection members, _ => intersectionSource inner source target members
  | s, t => shapes inner source target s t

/-- One unfolding of the rules. -/
def rules (nested : Nested) (inner : Inner) (source target : TypeId) : Check Bool := do
  if target = .any || target = .unknown || target = .error then
    return true
  else if source = .never || source = .error then
    return true
  else if target = .never then
    fail (.typeMismatch source target)
  else if source = .any then
    return true
  else
    let resolvedSource ← resolve nested source
    let resolvedTarget ← resolve nested target
    if resolvedSource = source && resolvedTarget = target then
      structures inner source target
    else
      inner resolvedSource resolvedTarget

/-- Asks the guard to work on a pair. -/
def enter (pair : TypeId × TypeId) : Check Recursion.Answer :=
  modifyGet fun c =>
    let (answer, guard) := c.guard.enter pair
    (answer, { c with guard := guard })

def leave (pair : TypeId × TypeId) : Check Unit :=
  modify fun c => { c with guard := c.guard.leave pair }

/-- Checks a pair that was entered; one that fails is remembered. -/
def work (check : Inner) (source target : TypeId) : Check Bool := do
  let result ← check source target
  leave (source, target)
  unless result do
    modify fun c => { c with failures := c.failures.insert (source, target) }
  return result

/-- Checks a pair by the rules, unless its answer is known. -/
def pair (check : Inner) (source target : TypeId) : Check Bool := do
  if source = target then
    return true
  else if (← get).failures.contains (source, target) then
    fail (.typeMismatch source target)
  else
    match ← enter (source, target) with
    | .entered => work check source target
    | .cycle => return true
    | _ =>
        reportDepthExceeded source
        fail (.typeMismatch source target)

/-- Checks a pair when `depth` more nested checks can be entered. -/
def subtypeAt (nested : Nested) : Nat → Inner
  | 0 => pair fun source target => fail (.typeMismatch source target)
  | depth + 1 => pair (rules nested (subtypeAt nested depth))

/-- Whether the source is assignable to the target, for a checker that is at no pair. -/
def isAssignable (nested : Nested) (source target : TypeId) : Check Bool := do
  restoreFailure none
  let guard := (← get).guard
  subtypeAt nested (guard.maxDepth - guard.depth) source target

/-- The answer of a check, with the reason of a failure. -/
structure Verdict where
  assignable : Bool
  reason : Option Diagnostic
  deriving DecidableEq, Repr

/-- Like `isAssignable`, with a diagnostic that explains a failure. -/
def checkAssignable (nested : Nested) (source target : TypeId) : Check Verdict := do
  if ← isAssignable nested source target then
    return ⟨true, none⟩
  let s ← getThe Store
  let d := (Diagnostic.of .notAssignable [s.text source, s.text target]).withLocation
    (s.origin? (.type source))
  match (← get).failure with
  | none => return ⟨false, some d⟩
  | some reason =>
      return ⟨false, some (d.withRelated (reason.location? s source target) (reason.message s))⟩

end Check

end TypeResolution
