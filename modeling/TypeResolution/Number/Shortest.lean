import TypeResolution.Number.Basic

/-!
Shortest decimals. The reals that round to a finite number form an interval around it; its
shortest decimal is the point of that interval with the fewest digits, and of those the nearest.
-/

namespace TypeResolution.Number

/-- `digits · 10 ^ up / 10 ^ down`; one of `up` and `down` is zero. -/
structure Decimal where
  digits : Nat
  up : Nat
  down : Nat
  deriving DecidableEq, Repr

/-- The reals between `lo` and `hi`, counted in units of `2 ^ -1076`, that round to one number. -/
structure Interval where
  lo : Nat
  mid : Nat
  hi : Nat
  closed : Bool
  deriving DecidableEq, Repr

/-- Four units of `2 ^ -1076` make one of `2 ^ -1074`. Below a power of two the numbers lie twice
as close, and the ends belong to the interval when the significand is even. -/
def interval (x : Number) : Interval :=
  let ulp := 1 <<< x.scale
  { lo := 4 * x.units - (if x.significand = 1 <<< 52 ∧ x.scale ≠ 0 then ulp else 2 * ulp)
    mid := 4 * x.units
    hi := 4 * x.units + 2 * ulp
    closed := x.significand % 2 = 0 }

/-- Whether `num / den` lies in the interval. -/
def Interval.holds (i : Interval) (num den : Nat) : Bool :=
  if i.closed then i.lo * den ≤ num && num ≤ i.hi * den
  else i.lo * den < num && num < i.hi * den

/-- The decimal exponent `e` of `10 ^ e ≤ num / den`, found upward or downward from zero. -/
def exponentUp (num den : Nat) : Nat → Nat → Nat
  | 0, e => e
  | fuel + 1, e => if den * Nat.pow 10 (e + 1) ≤ num then exponentUp num den fuel (e + 1) else e

def exponentDown (num den : Nat) : Nat → Nat → Nat
  | 0, e => e
  | fuel + 1, e => if num * Nat.pow 10 e < den then exponentDown num den fuel (e + 1) else e

/-- The grid of decimals that have `places` decimal places, or end in `zeros` zeros: its point at
or below the middle of the interval and the one above, whichever lies in the interval. Of two the
nearer one is taken, and the upper one of two equally near. -/
def onGrid (i : Interval) (zeros places : Nat) : Option Nat :=
  let num := i.mid * Nat.pow 10 places
  let den := Nat.pow 10 zeros <<< 1076
  let below := num / den
  let r := num % den
  let holds := fun c => i.holds (c * den) (Nat.pow 10 places)
  if holds below then
    if holds (below + 1) && den ≤ 2 * r then some (below + 1) else some below
  else if holds (below + 1) then some (below + 1)
  else none

/-- Tries the grids of multiples of `10 ^ (up - down - digits)`, of a tenth of that, and so on. -/
def shortestFrom (i : Interval) (up down : Nat) : Nat → Nat → Decimal
  | 0, _ => ⟨0, 0, 0⟩
  | fuel + 1, digits =>
      let zeros := up - (down + digits)
      let places := down + digits - up
      match onGrid i zeros places with
      | some d => ⟨d, zeros, places⟩
      | none => shortestFrom i up down fuel (digits + 1)

/-- The shortest decimal of the magnitude of a finite number that is not zero. The coarsest grid is
that of the next power of ten, which the number may round up to; seventeen digits always suffice. -/
def shortest (x : Number) : Decimal :=
  let i := x.interval
  let up := exponentUp i.mid (1 <<< 1076) 310 0
  let down := exponentDown i.mid (1 <<< 1076) 330 0
  shortestFrom i (up + 1) down 19 0

end TypeResolution.Number
