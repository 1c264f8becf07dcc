import TypeResolution.Json.Value
import TypeResolution.Number.Text

/-!
Writing JSON text, without blanks. Quotes, backslashes and control characters are escaped, all
other characters stand for themselves. Very large and very small numbers have an exponent.
-/

namespace TypeResolution.Json

namespace Writer

def hexDigit (n : Nat) : Char :=
  if n < 10 then Char.ofNat ('0'.toNat + n) else Char.ofNat ('a'.toNat + (n - 10))

/-- A control character by its number. -/
def controlEscape (c : Char) : List Char :=
  ['\\', 'u', '0', '0', hexDigit (c.toNat / 16), hexDigit (c.toNat % 16)]

def escape (c : Char) : List Char :=
  match c with
  | '"' => ['\\', '"']
  | '\\' => ['\\', '\\']
  | '\n' => ['\\', 'n']
  | '\r' => ['\\', 'r']
  | '\t' => ['\\', 't']
  | '\x08' => ['\\', 'b']
  | '\x0c' => ['\\', 'f']
  | c => if c.toNat < 0x20 then controlEscape c else [c]

def push (out : String) (cs : List Char) : String := cs.foldl String.push out

/-- Adds a text in quotes. -/
def quote (out text : String) : String :=
  (text.foldl (fun out c => push out (escape c)) (out.push '"')).push '"'

/-- Text that has no characters is written as null. -/
def text (out : String) : JsonText → String
  | none => out ++ "null"
  | some t => quote out t

/-- One digit before the point, and the exponent that goes with it. -/
def scientific (digits : List Char) (exponent : Int) : String :=
  let fraction := digits.drop 1
  String.ofList (digits.take 1) ++ (if fraction.isEmpty then "" else "." ++ String.ofList fraction)
    ++ "e" ++ toString exponent

/-- A magnitude has an exponent when it is at least `10 ^ 16` or less than `10 ^ -5`. -/
def decimal (d : Number.Decimal) : String :=
  let digits := Nat.toDigits 10 d.digits
  -- the magnitude lies between `10 ^ (point - 1)` and `10 ^ point`
  let point : Int := digits.length + d.up - d.down
  if -5 < point && point ≤ 16 then
    d.toText ++ (if d.down = 0 then ".0" else "")
  else
    scientific digits (point - 1)

/-- A number that is not finite is written as null. -/
def number (out : String) : JsonNumber → String
  | .integer negative magnitude =>
      (if negative then out.push '-' else out) ++ toString magnitude
  | .real none => out ++ "null"
  | .real (some x) =>
      if !x.isFinite then out ++ "null"
      else
        let out := if x.isNegative then out.push '-' else out
        if x.isZero then out ++ "0.0" else out ++ decimal x.shortest

mutual

def value (out : String) : Json → String
  | .null => out ++ "null"
  | .bool b => out ++ (if b then "true" else "false")
  | .number n => number out n
  | .string t => text out t
  | .array items => (values (out.push '[') true items).push ']'
  | .object items => (entries (out.push '\x7b') true items).push '\x7d'

def values (out : String) (first : Bool) : List Json → String
  | [] => out
  | v :: rest => values (value (if first then out else out.push ',') v) false rest

def entries (out : String) (first : Bool) : List (JsonText × Json) → String
  | [] => out
  | entry :: rest =>
      entries (keyed (if first then out else out.push ',') entry) false rest

def keyed (out : String) : JsonText × Json → String
  | (key, v) => value ((text out key).push ':') v

end

end Writer

def toText (j : Json) : String := Writer.value "" j

end TypeResolution.Json
