import TypeResolution.Type.Store

/-!
Types written out in full. The spelling of a type shows its whole structure with nothing left out,
so, unlike the display text, it tells any two types apart.
-/

namespace TypeResolution

/-- What is sorted by its spelling instead of being written as it is stored. -/
structure Arrangement where
  members : Bool
  fields : Bool
  deriving DecidableEq, Repr

/-- Everything as it is stored. -/
def Arrangement.stored : Arrangement := ⟨false, false⟩

namespace Spelling

def hexDigits : Nat → Nat → List Char → List Char
  | 0, _, done => done
  | places + 1, n, done => hexDigits places (n / 16) (Nat.digitChar (n % 16) :: done)

/-- The bits of a number as sixteen hexadecimal digits. -/
def bits (x : Number) : String := String.ofList (hexDigits 16 x.bits.toNat [])

/-- A text in quotes, with quotes and backslashes escaped. -/
def quoted (text : String) : String :=
  text.foldl (fun out c => if c = '"' || c = '\\' then (out.push '\\').push c else out.push c) "\""
    ++ "\""

def literal : Literal → String
  | .string text => quoted text
  | .number value => "#" ++ bits value.canonical
  | .boolean value => if value then "true" else "false"

def sorted (texts : List String) : List String := texts.mergeSort fun a b => decide (a ≤ b)

def list (texts : List String) : String := ",".intercalate texts

def members (a : Arrangement) (texts : List String) : String :=
  list (if a.members then sorted texts else texts)

def field (spell : TypeId → String) (f : Field) : String :=
  (if f.readonly then "readonly " else "") ++ quoted f.name ++ (if f.optional then "?" else "")
    ++ ":" ++ spell f.type

/-- The index signature comes last. -/
def object (a : Arrangement) (spell : TypeId → String) (shape : ObjectShape) : String :=
  let fields := shape.fields.map (field spell)
  let index := shape.stringIndex.toList.map fun t => "[]:" ++ spell t
  "\x7b" ++ list ((if a.fields then sorted fields else fields) ++ index) ++ "\x7d"

def param (spell : TypeId → String) (info : TypeParam) : String :=
  "P(" ++ list (quoted info.name :: info.constraint.toList.map (fun t => "extends=" ++ spell t)
    ++ info.default.toList.map (fun t => "default=" ++ spell t)
    ++ if info.isConst then ["const"] else []) ++ ")"

def modifier : Option Modifier → String
  | some .add => "add"
  | some .remove => "remove"
  | none => "-"

def option (spell : TypeId → String) : Option TypeId → String
  | some t => spell t
  | none => "-"

def span (spell : TypeId → String) : Span → String
  | .text text => quoted text
  | .hole t => "$" ++ spell t

/-- Spells a node whose components are spelled by `spell`. -/
def node (a : Arrangement) (spell : TypeId → String) : Node → String
  | .error => "error"
  | .intrinsic kind => kind.name
  | .literal value => literal value
  | .object shape => object a spell shape
  | .union ts => "U(" ++ members a (ts.map spell) ++ ")"
  | .intersection ts => "I(" ++ members a (ts.map spell) ++ ")"
  | .param info => param spell info
  | .conditional c =>
      "C(" ++ list [spell c.check, spell c.pattern, "[" ++ list (c.infer.map quoted) ++ "]",
        spell c.whenTrue, spell c.whenFalse, if c.distributive then "dist" else "plain"] ++ ")"
  | .mapped m =>
      "M(" ++ list [quoted m.keyParam, spell m.source, option spell m.keyFilter, spell m.template,
        option spell m.nameType, modifier m.optional, modifier m.readonly] ++ ")"
  | .function shape => "F([" ++ list (shape.params.map spell) ++ "]," ++ spell shape.result ++ ")"
  | .array element => "A(" ++ spell element ++ ")"
  | .reference name args => "R(" ++ quoted name ++ ",[" ++ list (args.map spell) ++ "])"
  | .indexAccess object key => "X(" ++ spell object ++ "," ++ spell key ++ ")"
  | .template spans => "T(" ++ list (spans.map (span spell)) ++ ")"
  | .stringMap kind arg => "S(" ++ kind.name ++ "," ++ spell arg ++ ")"

def spellAt (s : Store) (a : Arrangement) : Nat → TypeId → String
  | 0, _ => ""
  | fuel + 1, t => node a (spellAt s a fuel) (s.node t)

end Spelling

/-- The spelling of a type. Components have smaller ids than the types made of them, so the id
bounds the nesting. -/
def Store.spelling (s : Store) (a : Arrangement) (t : TypeId) : String :=
  Spelling.spellAt s a (t.index + 1) t

end TypeResolution
