import TypeResolution.Number.Text
import TypeResolution.Type.Store

/-!
Types as readable text, for messages. Components that are nested too deep are left out.
-/

namespace TypeResolution.Printer

/-- Nesting up to which components are written. -/
def maxDepth : Nat := 12

def literalText : Literal → String
  | .string text => "\"" ++ text ++ "\""
  | .number value => value.toText
  | .boolean value => if value then "true" else "false"

def bracketed (n : Node) (text : String) : String :=
  if n.isCompound then "(" ++ text ++ ")" else text

def fieldText (f : Field) (type : String) : String :=
  (if f.readonly then "readonly " else "") ++ f.name ++ (if f.optional then "?" else "") ++ ": "
    ++ type

def readonlyText : Option Modifier → String
  | some .add => "readonly "
  | some .remove => "-readonly "
  | none => ""

def optionalText : Option Modifier → String
  | some .add => "?"
  | some .remove => "-?"
  | none => ""

/-- Writes a node whose components are written by `text`. -/
def nodeText (s : Store) (text : TypeId → String) : Node → String
  | .error => "error"
  | .intrinsic kind => kind.name
  | .literal value => literalText value
  | .object shape =>
      if shape.isEmpty then "\x7b\x7d"
      else
        let index := match shape.stringIndex with
          | some t => ["[key: string]: " ++ text t]
          | none => []
        "\x7b " ++ "; ".intercalate (index ++ shape.fields.map fun f => fieldText f (text f.type))
          ++ " \x7d"
  | .union members => " | ".intercalate (members.map fun t => bracketed (s.node t) (text t))
  | .intersection members => " & ".intercalate (members.map fun t => bracketed (s.node t) (text t))
  | .param info => info.name
  | .conditional c =>
      text c.check ++ " extends " ++ text c.pattern ++ " ? " ++ text c.whenTrue ++ " : "
        ++ text c.whenFalse
  | .mapped m =>
      let remap := match m.nameType with
        | some t => " as " ++ text t
        | none => ""
      "\x7b " ++ readonlyText m.readonly ++ "[" ++ m.keyParam ++ " in keyof " ++ text m.source
        ++ remap ++ "]" ++ optionalText m.optional ++ ": " ++ text m.template ++ " \x7d"
  | .function shape =>
      let params := shape.params.mapIdx fun i t => "arg" ++ toString i ++ ": " ++ text t
      "(" ++ ", ".intercalate params ++ ") => " ++ text shape.result
  | .array element => bracketed (s.node element) (text element) ++ "[]"
  | .reference name args =>
      if args.isEmpty then name else name ++ "<" ++ ", ".intercalate (args.map text) ++ ">"
  | .indexAccess object key => text object ++ "[" ++ text key ++ "]"
  | .template spans =>
      let parts := spans.map fun
        | .text a => a
        | .hole t => "$\x7b" ++ text t ++ "\x7d"
      "`" ++ String.join parts ++ "`"
  | .stringMap kind arg => kind.name ++ "<" ++ text arg ++ ">"

/-- The text of a type with `depth` levels of nesting left. -/
def textAt (s : Store) : Nat → TypeId → String
  | 0, _ => "..."
  | depth + 1, t => nodeText s (textAt s depth) (s.node t)

end Printer

/-- The text of a type. -/
def Store.text (s : Store) (t : TypeId) : String := Printer.textAt s Printer.maxDepth t

def Build.text (t : TypeId) : Build String := fun s => (s.text t, s)

end TypeResolution
