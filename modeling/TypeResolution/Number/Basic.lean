/-!
Binary64 numbers as their bits. A finite number is `significand · 2 ^ scale / 2 ^ 1074` up to its
sign, so magnitudes are compared and rounded in exact natural arithmetic.
-/

namespace TypeResolution

/-- A binary64 number. -/
structure Number where
  bits : UInt64
  deriving DecidableEq, Hashable, Repr

namespace Number

def zero : Number := ⟨0⟩

/-- The one NaN that canonical numbers use. -/
def nan : Number := ⟨0x7ff8000000000000⟩

def isNegative (x : Number) : Bool := 1 <<< 63 ≤ x.bits.toNat

def magnitudeBits (x : Number) : Nat := x.bits.toNat % (1 <<< 63)

def exponentField (x : Number) : Nat := x.magnitudeBits >>> 52

def fractionField (x : Number) : Nat := x.magnitudeBits % (1 <<< 52)

def isZero (x : Number) : Bool := x.magnitudeBits = 0

def isFinite (x : Number) : Bool := x.exponentField < 2047

def isNaN (x : Number) : Bool := x.exponentField = 2047 && x.fractionField ≠ 0

def significand (x : Number) : Nat :=
  if x.exponentField = 0 then x.fractionField else x.fractionField + (1 <<< 52)

def scale (x : Number) : Nat := x.exponentField - 1

/-- The magnitude counted in units of `2 ^ -1074`, the least positive number. -/
def units (x : Number) : Nat := x.significand <<< x.scale

def isInteger (x : Number) : Bool :=
  x.isFinite && x.units % (1 <<< 1074) = 0

/-- The magnitude of an integer; the fraction of any other finite number is cut off. -/
def wholePart (x : Number) : Nat := x.units >>> 1074

/-- One zero and one NaN; every other number is itself. Number literals are compared like this. -/
def canonical (x : Number) : Number :=
  if x.isZero then zero else if x.isNaN then nan else x

theorem canonical_canonical (x : Number) : x.canonical.canonical = x.canonical := by
  unfold canonical
  split
  · rfl
  · split
    · rfl
    · simp_all

/-- The bits of the magnitude nearest to `num / den`, a tie going to the even significand. The
result is at least `infinityBits` when the quotient is too large. -/
def roundRatio (num den : Nat) : Nat :=
  let scaled := num <<< 1074
  let shift := (scaled / den).log2 + 1 - 53
  let unit := den <<< shift
  let q := scaled / unit
  let r := scaled % unit
  let up := unit < 2 * r || (2 * r = unit && q % 2 = 1)
  (shift <<< 52) + (if up then q + 1 else q)

def infinityBits : Nat := 2047 <<< 52

/-- A magnitude with a sign. -/
def ofMagnitudeBits (negative : Bool) (magnitude : Nat) : Number :=
  ⟨UInt64.ofNat ((if negative then 1 <<< 63 else 0) + min magnitude infinityBits)⟩

/-- `num / den` rounded. -/
def ofRatio (negative : Bool) (num den : Nat) : Number :=
  ofMagnitudeBits negative (roundRatio num den)

def ofNat (n : Nat) : Number := ofRatio false n 1

/-- Product of two finite magnitudes, rounded; the sign is that of `x`. -/
def mulMagnitude (x y : Number) : Number :=
  ofRatio x.isNegative (x.units * y.units) (1 <<< 2148)

/-- Quotient of two finite magnitudes, rounded; the sign is that of `x`. -/
def divMagnitude (x y : Number) : Number :=
  ofRatio x.isNegative x.units y.units

def negate (x : Number) : Number :=
  ofMagnitudeBits (!x.isNegative) x.magnitudeBits

end Number

end TypeResolution
