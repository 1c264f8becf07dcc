import TypeResolution.Json.Reader

/-!
Decoding JSON values. A record is an object with named fields or an array of its fields in order;
keys that it does not know are ignored, whatever stands there. A choice is an object with one
entry, or a text when nothing else is to be said. Values are decoded up to a bounded nesting.
-/

namespace TypeResolution.Json

/-- How a value is decoded: how many more arrays and objects may nest, and whether the value has
been taken in whole before. -/
structure Budget where
  depth : Nat
  whole : Bool
  deriving DecidableEq, Repr

namespace Budget

/-- Nesting up to which texts are decoded. -/
def standard : Budget := ⟨127, false⟩

/-- Goes into an array or object. -/
def enter? (b : Budget) : Option Budget :=
  match b.depth with
  | 0 => none
  | d + 1 => some { b with depth := d }

end Budget

abbrev Decoder (α : Type) := Budget → Json → Option α

def string? : Json → Option String
  | .string t => t
  | _ => none

def bool? : Json → Option Bool
  | .bool b => some b
  | _ => none

def word? : Json → Option UInt32
  | .number n => n.word?
  | _ => none

def number? : Json → Option Number
  | .number n => n.number?
  | _ => none

def decodeString : Decoder String := fun _ j => j.string?

def decodeBool : Decoder Bool := fun _ j => j.bool?

def decodeWord : Decoder UInt32 := fun _ j => j.word?

def decodeNumber : Decoder Number := fun _ j => j.number?

def decodeList {α : Type} (item : Decoder α) : Decoder (List α) := fun b j => do
  match j with
  | .array items =>
      let b ← b.enter?
      items.mapM (item b)
  | _ => none

/-- A value or null. -/
def decodeOption {α : Type} (item : Decoder α) : Decoder (Option α) := fun b j =>
  match j with
  | .null => some none
  | j => (item b j).map some

/-- The value of a field among the entries of an object: none if it is missing. A repeated field is
an error. -/
def field? (name : String) (entries : List (JsonText × Json)) : Option (Option Json) :=
  match entries.filter (·.1 = some name) with
  | [] => some none
  | [(_, v)] => some (some v)
  | _ => none

/-- The values of named fields, each if it is there. -/
def fields? (names : List String) : Json → Option (List (Option Json))
  | .object entries =>
      if entries.any (·.1.isNone) then none
      else names.mapM (field? · entries)
  | .array items =>
      if names.length < items.length then none
      else some ((items.map some) ++ List.replicate (names.length - items.length) none)
  | _ => none

/-- The fields of a record and the budget inside it. -/
def record? (names : List String) (b : Budget) (j : Json) :
    Option (Budget × List (Option Json)) := do
  let fields ← fields? names j
  let b ← b.enter?
  return (b, fields)

def required {α : Type} (item : Decoder α) (b : Budget) (j : Option Json) : Option α := do
  item b (← j)

def withDefault {α : Type} (default : α) (item : Decoder α) (b : Budget) (j : Option Json) :
    Option α :=
  match j with
  | none => some default
  | some j => item b j

/-- What a choice says: its name, and its content with the budget for it. -/
def choice? (b : Budget) : Json → Option (String × Option (Budget × Json))
  | .string t => t.map (·, none)
  | .object [(key, v)] => do
      let b ← b.enter?
      return (← key, some (b, v))
  | _ => none

/-- A choice among plain names. -/
def decodeName {α : Type} (ofName : String → Option α) : Decoder α := fun b j => do
  let (name, content) ← choice? b j
  match content with
  | none => ofName name
  | some (_, .null) => ofName name
  | some (b, .object []) => if b.whole then ofName name else none
  | _ => none

/-- Whether a value can be taken in whole: its nesting is bounded, and all its texts and numbers
are values. -/
def isWholeAt : Nat → Json → Bool
  | _, .null => true
  | _, .bool _ => true
  | _, .number n => n.number?.isSome
  | _, .string t => t.isSome
  | 0, .array _ => false
  | 0, .object _ => false
  | d + 1, .array items => items.all (isWholeAt d)
  | d + 1, .object entries => entries.all fun (k, v) => k.isSome && isWholeAt d v

/-- The tag of a variant: its name or, inside a value taken in whole, its number. -/
def tag? (tags : List String) (b : Budget) : Json → Option String
  | .string t => t
  | .number (.integer false n) => if b.whole then tags[n]? else none
  | _ => none

/-- A value that tells its variant in the field `kind`, or as the first item of an array: the
variant, and the other fields. Such values are taken in whole. -/
def tagged? (tags : List String) (b : Budget) (j : Json) : Option (String × Budget × Json) := do
  unless b.whole || isWholeAt b.depth j do
    none
  let inner ← b.enter?
  let inner := { inner with whole := true }
  match j with
  | .object entries =>
      let kind ← (← field? "kind" entries)
      let tag ← tag? tags b kind
      return (tag, inner, .object (entries.filter (·.1 ≠ some "kind")))
  | .array (kind :: rest) => return (← tag? tags b kind, inner, .array rest)
  | _ => none

end TypeResolution.Json
