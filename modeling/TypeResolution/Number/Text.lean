import TypeResolution.Number.Shortest

/-!
How numbers are displayed. Integers below `10 ^ 21` show the value clamped to 64 bits, every other
finite number the shortest decimal that reads back, without an exponent.
-/

namespace TypeResolution.Number

def zeros (n : Nat) : String := String.ofList (List.replicate n '0')

/-- Positional notation of a decimal. -/
def Decimal.toText (d : Decimal) : String :=
  let digits := Nat.toDigits 10 d.digits
  if d.down = 0 then
    String.ofList digits ++ zeros d.up
  else if digits.length ≤ d.down then
    "0." ++ zeros (d.down - digits.length) ++ String.ofList digits
  else
    String.ofList (digits.take (digits.length - d.down)) ++ "."
      ++ String.ofList (digits.drop (digits.length - d.down))

/-- Integers up to this magnitude are shown as 64-bit values. -/
def integerBound : Nat := Nat.pow 10 21

/-- The text of an integer of the given magnitude, clamped to `[-2 ^ 63, 2 ^ 63 - 1]`. -/
def integerText (negative : Bool) (magnitude : Nat) : String :=
  if magnitude = 0 then "0"
  else if negative then "-" ++ toString (min magnitude (1 <<< 63))
  else toString (min magnitude ((1 <<< 63) - 1))

def toText (x : Number) : String :=
  if x.isInteger && x.wholePart < integerBound then
    integerText x.isNegative x.wholePart
  else if x.isNaN then
    "NaN"
  else
    let sign := if x.isNegative then "-" else ""
    if x.isFinite then sign ++ x.shortest.toText else sign ++ "Infinity"

end TypeResolution.Number
