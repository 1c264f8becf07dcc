import TypeResolution.Json.Value

/-!
The value of a number written in decimal. Digits are kept while they fit a 64-bit word; then the
word is rounded to a number and multiplied or divided by a power of ten, which rounds once more.
-/

namespace TypeResolution.Json

/-- A number as it is written. -/
structure Numeral where
  negative : Bool
  whole : List Char
  fraction : List Char
  /-- Whether the exponent is negative, and its digits. -/
  exponent : Option (Bool × List Char)
  deriving DecidableEq, Repr

namespace Numeral

def digit (c : Char) : Nat := c.toNat - '0'.toNat

def ofDigits (ds : List Char) : Nat := ds.foldl (fun n c => 10 * n + digit c) 0

/-- The largest 64-bit word. -/
def maxWord : Nat := (1 <<< 64) - 1

/-- Keeps digits while they fit a word; every further digit counts as a factor of ten. -/
def takeWhole : Nat → Int → List Char → Nat × Int
  | word, scale, [] => (word, scale)
  | word, scale, c :: rest =>
      if scale = 0 && 10 * word + digit c ≤ maxWord then
        takeWhole (10 * word + digit c) scale rest
      else takeWhole word (scale + 1) rest

/-- Keeps digits of the fraction while they fit a word and drops the others. -/
def takeFraction : Nat → Int → List Char → Nat × Int
  | word, scale, [] => (word, scale)
  | word, scale, c :: rest =>
      if 10 * word + digit c ≤ maxWord then
        takeFraction (10 * word + digit c) (scale - 1) rest
      else (word, scale)

/-- Powers of ten up to this one are numbers. -/
def maxPower : Nat := 308

def powerOfTen (n : Nat) : Number := .ofNat (Nat.pow 10 n)

/-- `word · 10 ^ scale`; none if it is too large. Small results are reached in several steps. -/
def scaleBy : Nat → Number → Int → Option Number
  | 0, _, _ => some .zero
  | fuel + 1, x, scale =>
      if scale.natAbs ≤ maxPower then
        let power := powerOfTen scale.natAbs
        if 0 ≤ scale then
          let y := x.mulMagnitude power
          if y.isFinite then some y else none
        else some (x.divMagnitude power)
      else if x.isZero then some x
      else if 0 ≤ scale then none
      else scaleBy fuel (x.divMagnitude (powerOfTen maxPower)) (scale + maxPower)

/-- Exponents beyond this are not counted. -/
def maxExponent : Nat := (1 <<< 31) - 1

/-- The magnitude of the number; none if it is too large. -/
def magnitude? (n : Numeral) : Option Number :=
  let (word, scale) := takeWhole 0 0 n.whole
  let (word, scale) := takeFraction word scale n.fraction
  match n.exponent with
  | none => scaleBy 8 (.ofNat word) scale
  | some (below, digits) =>
      let e := ofDigits digits
      if maxExponent < e then
        if word = 0 || below then some .zero else none
      else scaleBy 8 (.ofNat word) (if below then scale - e else scale + e)

def number? (n : Numeral) : Option Number :=
  n.magnitude?.map fun x => if n.negative then x.negate else x

/-- The value that is read for the number. -/
def value (n : Numeral) : JsonNumber :=
  if n.fraction.isEmpty && n.exponent.isNone then .integer n.negative (ofDigits n.whole)
  else .real n.number?

end Numeral

end Json

namespace JsonNumber

/-- The number nearest to an integer that fits a word; longer ones are read like decimals. -/
def number? : JsonNumber → Option Number
  | .integer negative magnitude =>
      Json.Numeral.number? ⟨negative, Nat.toDigits 10 magnitude, [], none⟩
  | .real value => value

/-- A word of 32 bits. -/
def word? : JsonNumber → Option UInt32
  | .integer false magnitude => if magnitude < UInt32.size then some (.ofNat magnitude) else none
  | _ => none

end JsonNumber

end TypeResolution
