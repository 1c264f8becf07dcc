import TypeResolution.Expr.Basic
import TypeResolution.Json.Decode

/-!
The written form of type expressions and declarations, in both directions.
-/

namespace TypeResolution

open Json

/-- The default of a field that is a list. -/
def decodeListField {α : Type} (item : Decoder α) : Budget → Option Json → Option (List α) :=
  withDefault [] (decodeList item)

/-- A field that may be null or missing. -/
def decodeOptionField {α : Type} (item : Decoder α) : Budget → Option Json → Option (Option α) :=
  withDefault none (decodeOption item)

def decodeFlag : Budget → Option Json → Option Bool := withDefault false decodeBool

namespace SourceTag

def decode : Decoder SourceTag := fun b j => do
  let (b, fields) ← record? ["file", "start", "length"] b j
  match fields with
  | [file, start, length] =>
      let file ← required decodeWord b file
      let start ← required decodeWord b start
      let length ← required decodeWord b length
      return ⟨file, start, length⟩
  | _ => none

def encode (t : SourceTag) : Json :=
  .record [("file", .nat t.file.toNat), ("start", .nat t.start.toNat),
    ("length", .nat t.length.toNat)]

end SourceTag

namespace Intrinsic

def all : List Intrinsic :=
  [.never, .unknown, .any, .void, .undefined, .null, .boolean, .number, .string]

def tag : Intrinsic → String
  | .never => "Never"
  | .unknown => "Unknown"
  | .any => "Any"
  | .void => "Void"
  | .undefined => "Undefined"
  | .null => "Null"
  | .boolean => "Boolean"
  | .number => "Number"
  | .string => "String"

def decode : Decoder Intrinsic := decodeName fun n => all.find? (·.tag = n)

end Intrinsic

namespace StringMap

def all : List StringMap := [.uppercase, .lowercase, .capitalize, .uncapitalize]

def ofName? (n : String) : Option StringMap := all.find? (·.name = n)

def decode : Decoder StringMap := decodeName ofName?

end StringMap

namespace Modifier

def name : Modifier → String
  | .add => "Add"
  | .remove => "Remove"

def decode : Decoder Modifier := decodeName fun n => [Modifier.add, .remove].find? (·.name = n)

end Modifier

namespace Literal

def decode : Decoder Literal := fun b j => do
  let (name, content) ← choice? b j
  let (b, content) ← content
  match name with
  | "string" => return .string (← decodeString b content)
  | "number" => return .number (← decodeNumber b content)
  | "boolean" => return .boolean (← decodeBool b content)
  | _ => none

def encode : Literal → Json
  | .string text => .record [("string", .text text)]
  | .number value => .record [("number", .number (.real (some value)))]
  | .boolean value => .record [("boolean", .bool value)]

end Literal

namespace FieldExpr

def decodeWith (expr : Decoder TypeExpr) : Decoder FieldExpr := fun b j => do
  let (b, fields) ← record? ["name", "type", "optional", "readonly", "location"] b j
  match fields with
  | [name, type, optional, readonly, location] =>
      let name ← required decodeString b name
      let type ← required expr b type
      let optional ← decodeFlag b optional
      let readonly ← decodeFlag b readonly
      let location ← decodeOptionField SourceTag.decode b location
      return ⟨name, type, optional, readonly, location⟩
  | _ => none

end FieldExpr

namespace SpanExpr

def decodeWith (expr : Decoder TypeExpr) : Decoder SpanExpr := fun b j => do
  let (name, content) ← choice? b j
  let (b, content) ← content
  match name with
  | "text" => return .text (← decodeString b content)
  | "type" => return .hole (← expr b content)
  | _ => none

end SpanExpr

namespace ExprKind

def decodeObject (expr : Decoder TypeExpr) : Decoder ExprKind := fun b j => do
  let (b, fields) ← record? ["fields", "index_signature"] b j
  match fields with
  | [fields, index] =>
      let fields ← required (decodeList (FieldExpr.decodeWith expr)) b fields
      let index ← decodeOptionField expr b index
      return .object fields index
  | _ => none

def decodeFunction (expr : Decoder TypeExpr) : Decoder ExprKind := fun b j => do
  let (b, fields) ← record? ["params", "return_type"] b j
  match fields with
  | [params, returnType] =>
      let params ← required (decodeList expr) b params
      let returnType ← required expr b returnType
      return .function params returnType
  | _ => none

def decodeReference (expr : Decoder TypeExpr) : Decoder ExprKind := fun b j => do
  let (b, fields) ← record? ["name", "args"] b j
  match fields with
  | [name, args] =>
      let name ← required decodeString b name
      let args ← decodeListField expr b args
      return .reference name args
  | _ => none

def decodeConditional (expr : Decoder TypeExpr) : Decoder ExprKind := fun b j => do
  let (b, fields) ← record?
    ["check", "extends", "infer", "then_branch", "else_branch", "distributive"] b j
  match fields with
  | [check, pattern, infer, thenBranch, elseBranch, distributive] =>
      let check ← required expr b check
      let pattern ← required expr b pattern
      let infer ← decodeListField decodeString b infer
      let thenBranch ← required expr b thenBranch
      let elseBranch ← required expr b elseBranch
      let distributive ← decodeOptionField decodeBool b distributive
      return .conditional check pattern infer thenBranch elseBranch distributive
  | _ => none

def decodeMapped (expr : Decoder TypeExpr) : Decoder ExprKind := fun b j => do
  let (b, fields) ← record?
    ["key_param", "source", "key_filter", "template", "name_type", "optional", "readonly"] b j
  match fields with
  | [keyParam, source, keyFilter, body, nameType, optional, readonly] =>
      let keyParam ← required decodeString b keyParam
      let source ← required expr b source
      let keyFilter ← decodeOptionField expr b keyFilter
      let body ← required expr b body
      let nameType ← decodeOptionField expr b nameType
      let optional ← decodeOptionField Modifier.decode b optional
      let readonly ← decodeOptionField Modifier.decode b readonly
      return .mapped keyParam source keyFilter body nameType optional readonly
  | _ => none

def decodeIndexAccess (expr : Decoder TypeExpr) : Decoder ExprKind := fun b j => do
  let (b, fields) ← record? ["object", "index"] b j
  match fields with
  | [target, index] =>
      let target ← required expr b target
      let index ← required expr b index
      return .indexAccess target index
  | _ => none

def decodeStringMap (expr : Decoder TypeExpr) : Decoder ExprKind := fun b j => do
  let (b, fields) ← record? ["kind", "argument"] b j
  match fields with
  | [kind, argument] =>
      let kind ← required StringMap.decode b kind
      let argument ← required expr b argument
      return .stringMap kind argument
  | _ => none

def decodeWith (expr : Decoder TypeExpr) : Decoder ExprKind := fun b j => do
  let (name, content) ← choice? b j
  let (b, content) ← content
  match name with
  | "intrinsic" => return .intrinsic (← Intrinsic.decode b content)
  | "literal" => return .literal (← Literal.decode b content)
  | "object" => decodeObject expr b content
  | "union" => return .union (← decodeList expr b content)
  | "intersection" => return .intersection (← decodeList expr b content)
  | "function" => decodeFunction expr b content
  | "array" => return .array (← expr b content)
  | "reference" => decodeReference expr b content
  | "conditional" => decodeConditional expr b content
  | "mapped" => decodeMapped expr b content
  | "indexAccess" => decodeIndexAccess expr b content
  | "templateLiteral" => return .template (← decodeList (SpanExpr.decodeWith expr) b content)
  | "stringIntrinsic" => decodeStringMap expr b content
  | _ => none

end ExprKind

def encodeLocation (location : Option SourceTag) : List (String × Json) :=
  location.toList.map fun t => ("location", t.encode)

def encodeOption (item : Option Json) : Json := item.getD .null

def encodeModifier (m : Option Modifier) : Json := encodeOption (m.map fun m => .text m.name)

namespace TypeExpr

def decodeWith (expr : Decoder TypeExpr) : Decoder TypeExpr := fun b j => do
  let (b, fields) ← record? ["kind", "location"] b j
  match fields with
  | [kind, location] =>
      let kind ← required (ExprKind.decodeWith expr) b kind
      let location ← decodeOptionField SourceTag.decode b location
      return ⟨kind, location⟩
  | _ => none

/-- An expression in which expressions nest at most `level` deep. -/
def decodeAt : Nat → Decoder TypeExpr
  | 0 => fun _ _ => none
  | level + 1 => decodeWith (decodeAt level)

/-- Every expression is an array or object, so the budget bounds their nesting. -/
def decode : Decoder TypeExpr := fun b j => decodeAt (b.depth + 1) b j

end TypeExpr

mutual

def TypeExpr.encode : TypeExpr → Json
  | ⟨kind, location⟩ => .record (("kind", kind.encode) :: encodeLocation location)

def ExprKind.encode : ExprKind → Json
  | .intrinsic kind => .record [("intrinsic", .text kind.tag)]
  | .literal value => .record [("literal", value.encode)]
  | .object fields index =>
      .record [("object", .record [("fields", .array (encodeFields fields)),
        ("index_signature", encodeExprOption index)])]
  | .union members => .record [("union", .array (encodeExprs members))]
  | .intersection members => .record [("intersection", .array (encodeExprs members))]
  | .function params returnType =>
      .record [("function", .record [("params", .array (encodeExprs params)),
        ("return_type", returnType.encode)])]
  | .array element => .record [("array", element.encode)]
  | .reference name args =>
      .record [("reference", .record [("name", .text name), ("args", .array (encodeExprs args))])]
  | .conditional check pattern infer thenBranch elseBranch distributive =>
      .record [("conditional", .record [("check", check.encode), ("extends", pattern.encode),
        ("infer", .array (infer.map .text)), ("then_branch", thenBranch.encode),
        ("else_branch", elseBranch.encode), ("distributive", encodeOption (distributive.map .bool))])]
  | .mapped keyParam source keyFilter template nameType optional readonly =>
      .record [("mapped", .record [("key_param", .text keyParam), ("source", source.encode),
        ("key_filter", encodeExprOption keyFilter), ("template", template.encode),
        ("name_type", encodeExprOption nameType), ("optional", encodeModifier optional),
        ("readonly", encodeModifier readonly)])]
  | .indexAccess target index =>
      .record [("indexAccess", .record [("object", target.encode), ("index", index.encode)])]
  | .template spans => .record [("templateLiteral", .array (encodeSpans spans))]
  | .stringMap kind argument =>
      .record [("stringIntrinsic", .record [("kind", .text kind.name),
        ("argument", argument.encode)])]

def encodeExprs : List TypeExpr → List Json
  | [] => []
  | e :: rest => e.encode :: encodeExprs rest

def encodeExprOption : Option TypeExpr → Json
  | none => .null
  | some e => e.encode

def encodeFields : List FieldExpr → List Json
  | [] => []
  | ⟨name, type, optional, readonly, location⟩ :: rest =>
      .record ([("name", .text name), ("type", type.encode), ("optional", .bool optional),
        ("readonly", .bool readonly)] ++ encodeLocation location) :: encodeFields rest

def encodeSpans : List SpanExpr → List Json
  | [] => []
  | .text text :: rest => .record [("text", .text text)] :: encodeSpans rest
  | .hole e :: rest => .record [("type", e.encode)] :: encodeSpans rest

end

namespace ParamExpr

def decode : Decoder ParamExpr := fun b j => do
  let (b, fields) ← record? ["name", "constraint", "default", "isConst"] b j
  match fields with
  | [name, constraint, default, isConst] =>
      let name ← required decodeString b name
      let constraint ← decodeOptionField TypeExpr.decode b constraint
      let default ← decodeOptionField TypeExpr.decode b default
      let isConst ← decodeFlag b isConst
      return ⟨name, constraint, default, isConst⟩
  | _ => none

def encode (p : ParamExpr) : Json :=
  .record [("name", .text p.name), ("constraint", encodeExprOption p.constraint),
    ("default", encodeExprOption p.default), ("isConst", .bool p.isConst)]

end ParamExpr

namespace AliasExpr

def decode : Decoder AliasExpr := fun b j => do
  let (b, fields) ← record? ["name", "params", "body", "location"] b j
  match fields with
  | [name, params, body, location] =>
      let name ← required decodeString b name
      let params ← decodeListField ParamExpr.decode b params
      let body ← required TypeExpr.decode b body
      let location ← decodeOptionField SourceTag.decode b location
      return ⟨name, params, body, location⟩
  | _ => none

def encode (a : AliasExpr) : Json :=
  .record ([("name", .text a.name), ("params", .array (a.params.map (·.encode))),
    ("body", a.body.encode)] ++ encodeLocation a.location)

end AliasExpr

end TypeResolution
