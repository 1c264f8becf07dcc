import TypeResolution.Type.Node

/-!
Type expressions: what a host writes down. Every expression may carry a source tag. A name stands
for a parameter in scope, a built-in constructor or an alias; lowering decides which.
-/

namespace TypeResolution

mutual

/-- A type expression with its source tag. -/
structure TypeExpr where
  kind : ExprKind
  location : Option SourceTag

inductive ExprKind where
  | intrinsic (kind : Intrinsic)
  | literal (value : Literal)
  | object (fields : List FieldExpr) (indexSignature : Option TypeExpr)
  | union (members : List TypeExpr)
  | intersection (members : List TypeExpr)
  | function (params : List TypeExpr) (returnType : TypeExpr)
  | array (element : TypeExpr)
  | reference (name : String) (args : List TypeExpr)
  | conditional (check pattern : TypeExpr) (infer : List String) (thenBranch elseBranch : TypeExpr)
      (distributive : Option Bool)
  | mapped (keyParam : String) (source : TypeExpr) (keyFilter : Option TypeExpr)
      (template : TypeExpr) (nameType : Option TypeExpr) (optional readonly : Option Modifier)
  | indexAccess (object index : TypeExpr)
  | template (spans : List SpanExpr)
  | stringMap (kind : StringMap) (argument : TypeExpr)

structure FieldExpr where
  name : String
  type : TypeExpr
  optional : Bool
  readonly : Bool
  location : Option SourceTag

inductive SpanExpr where
  | text (text : String)
  | hole (type : TypeExpr)

end

/-- The declaration of a parameter. -/
structure ParamExpr where
  name : String
  constraint : Option TypeExpr
  default : Option TypeExpr
  isConst : Bool

def ParamExpr.named (name : String) : ParamExpr := ⟨name, none, none, false⟩

/-- The declaration of an alias. -/
structure AliasExpr where
  name : String
  params : List ParamExpr
  body : TypeExpr
  location : Option SourceTag

namespace TypeExpr

def of (kind : ExprKind) : TypeExpr := ⟨kind, none⟩

def withLocation (e : TypeExpr) (tag : SourceTag) : TypeExpr := { e with location := some tag }

def intrinsic (kind : Intrinsic) : TypeExpr := of (.intrinsic kind)

def string : TypeExpr := intrinsic .string

def number : TypeExpr := intrinsic .number

def boolean : TypeExpr := intrinsic .boolean

def stringLiteral (text : String) : TypeExpr := of (.literal (.string text))

def numberLiteral (value : Number) : TypeExpr := of (.literal (.number value))

def booleanLiteral (value : Bool) : TypeExpr := of (.literal (.boolean value))

def reference (name : String) (args : List TypeExpr) : TypeExpr := of (.reference name args)

def named (name : String) : TypeExpr := reference name []

def object (fields : List FieldExpr) : TypeExpr := of (.object fields none)

def union (members : List TypeExpr) : TypeExpr := of (.union members)

def intersection (members : List TypeExpr) : TypeExpr := of (.intersection members)

def array (element : TypeExpr) : TypeExpr := of (.array element)

def function (params : List TypeExpr) (returnType : TypeExpr) : TypeExpr :=
  of (.function params returnType)

def indexAccess (object index : TypeExpr) : TypeExpr := of (.indexAccess object index)

end TypeExpr

namespace FieldExpr

def of (name : String) (type : TypeExpr) : FieldExpr := ⟨name, type, false, false, none⟩

def asOptional (f : FieldExpr) : FieldExpr := { f with optional := true }

def withLocation (f : FieldExpr) (tag : SourceTag) : FieldExpr := { f with location := some tag }

end FieldExpr

end TypeResolution
