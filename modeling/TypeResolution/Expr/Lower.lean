import TypeResolution.Environment
import TypeResolution.Expr.Basic
import TypeResolution.Type.Store

/-!
Lowering: from expressions to types of the store. Names of parameters in scope become parameters,
a few names with one argument are built in, and all others become references. Unions and
intersections are kept as they are written.
-/

namespace TypeResolution

/-- Parameters in scope, inner ones first. -/
abbrev TypeScope := List (String × TypeId)

/-- Lowering counts the expressions it has met. -/
abbrev Lowering := StateT Nat Build

namespace Lowering

/-- Expressions beyond this number become the error type. -/
def maxOperations : Nat := 100000

/-- Counts an expression; whether it may still be lowered. -/
def bump : Lowering Bool := do
  modify (· + 1)
  return (← get) ≤ maxOperations

def limitExceeded : Lowering Bool := return maxOperations < (← get)

def bindNamed (scope : TypeScope) (name : String) : Build TypeScope := do
  return (name, ← Build.param (.named name)) :: scope

/-- Brings unconstrained parameters into scope. -/
def bindNames (names : List String) (scope : TypeScope) : Build TypeScope :=
  names.foldlM bindNamed scope

/-- A repeated field keeps its first position and takes the later type. -/
def putField (new : Field) : List Field → List Field
  | [] => [new]
  | old :: rest => if old.name = new.name then new :: rest else old :: putField new rest

/-- The text transform that a name is built in for. -/
def builtinMap? : String → Option StringMap
  | "Uppercase" => some .uppercase
  | "Lowercase" => some .lowercase
  | "Capitalize" => some .capitalize
  | "Uncapitalize" => some .uncapitalize
  | _ => none

/-- A name that is no parameter, with lowered arguments. -/
def application (name : String) : List TypeId → Build TypeId
  | [arg] =>
      if name = "Array" then Build.array arg
      else
        match builtinMap? name with
        | some kind => Build.stringMap kind arg
        | none => Build.reference name [arg]
  | args => Build.reference name args

/-- Records where the fields of an object come from. -/
def recordFields (object : TypeId) (fields : List FieldExpr) : Build Unit :=
  fields.forM fun f =>
    match f.location.or f.type.location with
    | some tag => Build.recordOrigin (.field object f.name) tag
    | none => pure ()

end Lowering

open Lowering

mutual

/-- Lowers an expression and records its tag for the type that it becomes. -/
def TypeExpr.lower : TypeExpr → TypeScope → Lowering TypeId
  | ⟨kind, location⟩, scope => do
      if ← bump then
        let t ← kind.lower scope
        if let some tag := location then
          Build.recordOrigin (.type t) tag
        return t
      else
        return .error

def ExprKind.lower : ExprKind → TypeScope → Lowering TypeId
  | .intrinsic kind, _ => return kind.typeId
  | .literal value, _ => Build.literal value
  | .object fields index, scope => do
      let lowered ← lowerFields fields scope []
      let stringIndex ← lowerOption index scope
      let object ← Build.object ⟨lowered, stringIndex⟩
      recordFields object fields
      return object
  | .union members, scope => do Build.rawUnion (← lowerAll members scope)
  | .intersection members, scope => do Build.rawIntersection (← lowerAll members scope)
  | .function params returnType, scope => do
      let params ← lowerAll params scope
      Build.function params (← returnType.lower scope)
  | .array element, scope => do Build.array (← element.lower scope)
  | .reference name args, scope => do
      match if args.isEmpty then scope.lookup name else none with
      | some param => return param
      | none => application name (← lowerAll args scope)
  | .conditional check pattern infer thenBranch elseBranch distributive, scope => do
      let check ← check.lower scope
      let isParam := match ← Build.node check with
        | .param _ => true
        | _ => false
      let inner ← bindNames infer scope
      let pattern ← pattern.lower inner
      let whenTrue ← thenBranch.lower inner
      let whenFalse ← elseBranch.lower inner
      Build.conditional ⟨check, pattern, infer, whenTrue, whenFalse, distributive.getD isParam⟩
  | .mapped keyParam source keyFilter template nameType optional readonly, scope => do
      let source ← source.lower scope
      let inner ← bindNames [keyParam] scope
      let keyFilter ← lowerOption keyFilter inner
      let template ← template.lower inner
      let nameType ← lowerOption nameType inner
      Build.mapped ⟨keyParam, source, keyFilter, template, nameType, optional, readonly⟩
  | .indexAccess object index, scope => do
      let object ← object.lower scope
      Build.indexAccess object (← index.lower scope)
  | .template spans, scope => do Build.template (← lowerSpans spans scope)
  | .stringMap kind argument, scope => do Build.stringMap kind (← argument.lower scope)

def lowerAll : List TypeExpr → TypeScope → Lowering (List TypeId)
  | [], _ => return []
  | e :: rest, scope => do
      let t ← e.lower scope
      return t :: (← lowerAll rest scope)

def lowerOption : Option TypeExpr → TypeScope → Lowering (Option TypeId)
  | none, _ => return none
  | some e, scope => return some (← e.lower scope)

def lowerFields : List FieldExpr → TypeScope → List Field → Lowering (List Field)
  | [], _, done => return done
  | ⟨name, type, optional, readonly, _⟩ :: rest, scope, done => do
      let t ← type.lower scope
      lowerFields rest scope (putField ⟨name, t, optional, readonly⟩ done)

def lowerSpans : List SpanExpr → TypeScope → Lowering (List Span)
  | [], _ => return []
  | .text text :: rest, scope => return .text text :: (← lowerSpans rest scope)
  | .hole e :: rest, scope => do
      let t ← e.lower scope
      return .hole t :: (← lowerSpans rest scope)

end

/-- Lowers the constraint and default of a parameter. -/
def ParamExpr.lower (p : ParamExpr) (scope : TypeScope) : Lowering TypeParam := do
  let constraint ← p.constraint.mapM (·.lower scope)
  let default ← p.default.mapM (·.lower scope)
  return ⟨p.name, constraint, default, p.isConst⟩

namespace Lowering

/-- Lowers parameters and brings them into scope. All names are in scope, still without
constraints, in every constraint and default. -/
def bindParams (params : List ParamExpr) (scope : TypeScope) :
    Lowering (List TypeParam × TypeScope) := do
  let bare ← bindNames (params.map (·.name)) scope
  let infos ← params.mapM (·.lower bare)
  let full ← infos.foldlM (fun scope info => return (info.name, ← Build.param info) :: scope) bare
  return (infos, full)

end Lowering

/-- Lowers an alias; its parameters are in scope in the body. -/
def AliasExpr.lower (a : AliasExpr) (scope : TypeScope) : Lowering Alias := do
  let (params, scope) ← bindParams a.params scope
  let body ← a.body.lower scope
  return ⟨a.name, params, body, a.location⟩

end TypeResolution
