import TypeResolution.Expr.Lower
import TypeResolution.Narrowing.Basic
import TypeResolution.Options

/-!
What a session is given: modules with their imports, aliases and queries.
-/

namespace TypeResolution

/-- A condition written with type expressions. -/
inductive GuardExpr where
  | typeof (kind : TypeofKind)
  | literalEquality (value : TypeExpr)
  | nullishEquality
  | truthy
  | discriminant (property : String) (value : TypeExpr)
  | inProperty (property : String)
  | predicate (asserts : TypeExpr)

def GuardExpr.lower (scope : TypeScope) : GuardExpr → Lowering TypeGuard
  | .typeof kind => return .typeof kind
  | .literalEquality value => return .literalEquality (← value.lower scope)
  | .nullishEquality => return .nullishEquality
  | .truthy => return .truthy
  | .discriminant property value => return .discriminant property (← value.lower scope)
  | .inProperty property => return .inProperty property
  | .predicate asserts => return .predicate (← asserts.lower scope)

/-- A question about types in the scope of a module. -/
inductive Query where
  | evaluate (type : TypeExpr)
  /-- A flag takes the place of the session's check for excess fields. -/
  | assignable (source target : TypeExpr) (excessPropertyCheck : Option Bool)
  | narrow (type : TypeExpr) (guard : GuardExpr) (branch : Branch)
  | inferCall (typeParams : List ParamExpr) (params args : List TypeExpr)

structure ModuleSource where
  name : String
  imports : List String
  aliases : List AliasExpr
  queries : List Query

namespace ModuleSource

def named (name : String) : ModuleSource := ⟨name, [], [], []⟩

def withImport (m : ModuleSource) (name : String) : ModuleSource :=
  { m with imports := m.imports ++ [name] }

def withAlias (m : ModuleSource) (a : AliasExpr) : ModuleSource :=
  { m with aliases := m.aliases ++ [a] }

def withQuery (m : ModuleSource) (q : Query) : ModuleSource :=
  { m with queries := m.queries ++ [q] }

end ModuleSource

structure SessionConfig where
  resolution : Options := {}
  /-- One worker for each module, instead of one module after the other. -/
  parallel : Bool := true
  deriving DecidableEq, Repr

structure Workspace where
  config : SessionConfig
  modules : List ModuleSource

/-- How log lines are written. -/
inductive LogFormat where
  | text
  | tree
  | json
  deriving DecidableEq, Repr

namespace LogFormat

def name : LogFormat → String
  | .text => "Text"
  | .tree => "Tree"
  | .json => "Json"

/-- Blanks around the name and its letter case do not matter; other names mean plain text. -/
def ofName (s : String) : LogFormat :=
  match Text.toLower (String.ofList (Text.trim s.toList)) with
  | "tree" => .tree
  | "json" => .json
  | _ => .text

end LogFormat

end TypeResolution
