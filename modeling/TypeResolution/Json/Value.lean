import TypeResolution.Number.Basic

/-!
JSON values as they are read. A text with half of a surrogate pair and a number that is too large
are well formed, but no value; they matter only where the value is used.
-/

namespace TypeResolution

/-- A number written without fraction and exponent, or one written with them. -/
inductive JsonNumber where
  | integer (negative : Bool) (magnitude : Nat)
  /-- None if the number is too large. -/
  | real (value : Option Number)
  deriving DecidableEq, Repr

/-- The characters of a text; none if an escape names half of a surrogate pair. -/
abbrev JsonText := Option String

inductive Json where
  | null
  | bool (value : Bool)
  | number (value : JsonNumber)
  | string (text : JsonText)
  | array (items : List Json)
  | object (entries : List (JsonText × Json))

namespace Json

instance : Inhabited Json := ⟨.null⟩

def text (s : String) : Json := .string (some s)

def nat (n : Nat) : Json := .number (.integer false n)

/-- An object with known keys. -/
def record (entries : List (String × Json)) : Json :=
  .object (entries.map fun (k, v) => (some k, v))

end Json

end TypeResolution
