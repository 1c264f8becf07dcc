import TypeResolution.Json.Vocabulary
import TypeResolution.Session.Source

/-!
The written form of options, queries, modules and workspaces, in both directions.
-/

namespace TypeResolution

open Json

namespace Options

def decode : Decoder Options := fun b j => do
  let (b, fields) ← record? ["maxEvaluationDepth", "maxSubtypeDepth", "maxIterations",
    "excessPropertyCheck", "preserveLiterals"] b j
  match fields with
  | [evaluation, subtype, iterations, excess, literals] =>
      let o := Options.standard
      let evaluation ← withDefault o.maxEvaluationDepth decodeWord b evaluation
      let subtype ← withDefault o.maxSubtypeDepth decodeWord b subtype
      let iterations ← withDefault o.maxIterations decodeWord b iterations
      let excess ← decodeFlag b excess
      let literals ← decodeFlag b literals
      return ⟨evaluation, subtype, iterations, excess, literals⟩
  | _ => none

def encode (o : Options) : Json :=
  .record [("maxEvaluationDepth", .nat o.maxEvaluationDepth.toNat),
    ("maxSubtypeDepth", .nat o.maxSubtypeDepth.toNat),
    ("maxIterations", .nat o.maxIterations.toNat),
    ("excessPropertyCheck", .bool o.excessPropertyCheck),
    ("preserveLiterals", .bool o.preserveLiterals)]

end Options

namespace SessionConfig

def decode : Decoder SessionConfig := fun b j => do
  let (b, fields) ← record? ["resolution", "parallel"] b j
  match fields with
  | [resolution, parallel] =>
      let resolution ← withDefault {} Options.decode b resolution
      let parallel ← withDefault true decodeBool b parallel
      return ⟨resolution, parallel⟩
  | _ => none

def encode (c : SessionConfig) : Json :=
  .record [("resolution", c.resolution.encode), ("parallel", .bool c.parallel)]

end SessionConfig

def TypeofKind.decode : Decoder TypeofKind := decodeName TypeofKind.ofName?

def Branch.decode : Decoder Branch :=
  decodeName fun n => [Branch.whenTrue, .whenFalse].find? (·.name = n)

namespace GuardExpr

def tags : List String :=
  ["typeof", "literalEquality", "nullishEquality", "truthy", "discriminant", "inProperty",
    "predicate"]

def decode : Decoder GuardExpr := fun b j => do
  let (tag, b, rest) ← tagged? tags b j
  match tag with
  | "typeof" =>
      match ← fields? ["name"] rest with
      | [name] => return .typeof (← required TypeofKind.decode b name)
      | _ => none
  | "literalEquality" =>
      match ← fields? ["value"] rest with
      | [value] => return .literalEquality (← required TypeExpr.decode b value)
      | _ => none
  | "nullishEquality" => (fields? [] rest).map fun _ => .nullishEquality
  | "truthy" => (fields? [] rest).map fun _ => .truthy
  | "discriminant" =>
      match ← fields? ["property", "value"] rest with
      | [property, value] =>
          let property ← required decodeString b property
          return .discriminant property (← required TypeExpr.decode b value)
      | _ => none
  | "inProperty" =>
      match ← fields? ["property"] rest with
      | [property] => return .inProperty (← required decodeString b property)
      | _ => none
  | "predicate" =>
      match ← fields? ["asserts"] rest with
      | [asserts] => return .predicate (← required TypeExpr.decode b asserts)
      | _ => none
  | _ => none

def encode : GuardExpr → Json
  | .typeof kind => .record [("kind", .text "typeof"), ("name", .text kind.name)]
  | .literalEquality value =>
      .record [("kind", .text "literalEquality"), ("value", value.encode)]
  | .nullishEquality => .record [("kind", .text "nullishEquality")]
  | .truthy => .record [("kind", .text "truthy")]
  | .discriminant property value =>
      .record [("kind", .text "discriminant"), ("property", .text property),
        ("value", value.encode)]
  | .inProperty property => .record [("kind", .text "inProperty"), ("property", .text property)]
  | .predicate asserts => .record [("kind", .text "predicate"), ("asserts", asserts.encode)]

end GuardExpr

namespace Query

def tags : List String := ["evaluate", "assignable", "narrow", "inferCall"]

def decode : Decoder Query := fun b j => do
  let (tag, b, rest) ← tagged? tags b j
  match tag with
  | "evaluate" =>
      match ← fields? ["type"] rest with
      | [type] => return .evaluate (← required TypeExpr.decode b type)
      | _ => none
  | "assignable" =>
      match ← fields? ["source", "target", "excessPropertyCheck"] rest with
      | [source, target, excess] =>
          let source ← required TypeExpr.decode b source
          let target ← required TypeExpr.decode b target
          return .assignable source target (← decodeOptionField decodeBool b excess)
      | _ => none
  | "narrow" =>
      match ← fields? ["type", "guard", "branch"] rest with
      | [type, guard, branch] =>
          let type ← required TypeExpr.decode b type
          let guard ← required GuardExpr.decode b guard
          return .narrow type guard (← required Branch.decode b branch)
      | _ => none
  | "inferCall" =>
      match ← fields? ["typeParams", "params", "args"] rest with
      | [typeParams, params, args] =>
          let typeParams ← decodeListField ParamExpr.decode b typeParams
          let params ← required (decodeList TypeExpr.decode) b params
          return .inferCall typeParams params (← required (decodeList TypeExpr.decode) b args)
      | _ => none
  | _ => none

def encode : Query → Json
  | .evaluate type => .record [("kind", .text "evaluate"), ("type", type.encode)]
  | .assignable source target excess =>
      .record [("kind", .text "assignable"), ("source", source.encode), ("target", target.encode),
        ("excessPropertyCheck", encodeOption (excess.map .bool))]
  | .narrow type guard branch =>
      .record [("kind", .text "narrow"), ("type", type.encode), ("guard", guard.encode),
        ("branch", .text branch.name)]
  | .inferCall typeParams params args =>
      .record [("kind", .text "inferCall"), ("typeParams", .array (typeParams.map (·.encode))),
        ("params", .array (encodeExprs params)), ("args", .array (encodeExprs args))]

end Query

namespace ModuleSource

def decode : Decoder ModuleSource := fun b j => do
  let (b, fields) ← record? ["name", "imports", "aliases", "queries"] b j
  match fields with
  | [name, imports, aliases, queries] =>
      let name ← required decodeString b name
      let imports ← decodeListField decodeString b imports
      let aliases ← decodeListField AliasExpr.decode b aliases
      let queries ← decodeListField Query.decode b queries
      return ⟨name, imports, aliases, queries⟩
  | _ => none

def encode (m : ModuleSource) : Json :=
  .record [("name", .text m.name), ("imports", .array (m.imports.map .text)),
    ("aliases", .array (m.aliases.map (·.encode))), ("queries", .array (m.queries.map (·.encode)))]

end ModuleSource

namespace Workspace

def decode : Decoder Workspace := fun b j => do
  let (b, fields) ← record? ["config", "modules"] b j
  match fields with
  | [config, modules] =>
      let config ← withDefault {} SessionConfig.decode b config
      let modules ← decodeListField ModuleSource.decode b modules
      return ⟨config, modules⟩
  | _ => none

def encode (w : Workspace) : Json :=
  .record [("config", w.config.encode), ("modules", .array (w.modules.map (·.encode)))]

end Workspace

/-- Decodes a whole text. -/
def decodeText? {α : Type} (decode : Decoder α) (s : String) : Option α := do
  decode .standard (← Json.ofText? s)

end TypeResolution
