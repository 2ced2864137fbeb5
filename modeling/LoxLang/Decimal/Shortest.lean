import LoxLang.Binary64

/-!
The shortest decimal of a binary64 magnitude: the fewest digits that read back as the magnitude,
and of several such decimals the one nearest to it.

All comparisons are between whole numbers of `10 ^ (-1074)`. In these units a magnitude of `u` binary
units is `u * 5 ^ 1074`, and the decimals whose last digit stands at the place `n` are the multiples of
`10 ^ n`. The places are searched from the coarsest one down, so the first hit has the fewest digits;
at place zero the magnitude itself is a multiple.
-/

namespace LoxLang

/-- The decimal `digits * 10 ^ (place - 1074)`. -/
structure Decimal where
  digits : Nat
  place : Nat
  deriving DecidableEq

namespace Decimal

open Binary64 (Magnitude)

def fivePower : Nat := Nat.pow 5 1074

/-- The value in units of `10 ^ (-1074)`. -/
def units (decimal : Decimal) : Nat :=
  decimal.digits * Nat.pow 10 decimal.place

/-- The number of places after the decimal point when `place` is the last one. -/
def exponent (decimal : Decimal) : Int :=
  (decimal.place : Int) - 1074

/-- The numbers that round to a magnitude, in quarters of `10 ^ (-1074)`. The ends belong to the
interval exactly when they are ties that go to the magnitude. -/
structure Interval where
  lower : Nat
  upper : Nat
  closed : Bool

namespace Interval

/-- The neighbours of a magnitude lie one `2 ^ shift` away, except below a power of two, where the
gap is half as wide. -/
def ofMagnitude (magnitude : Magnitude) : Interval :=
  let gap := Nat.pow 2 magnitude.shift * fivePower
  let centre := 4 * (magnitude.units * fivePower)
  let below :=
    if magnitude.significand = Nat.pow 2 52 ∧ 0 < magnitude.shift then gap else 2 * gap
  ⟨centre - below, centre + 2 * gap, magnitude.significand % 2 == 0⟩

def contains (interval : Interval) (units : Nat) : Bool :=
  if interval.closed then
    interval.lower ≤ 4 * units && 4 * units ≤ interval.upper
  else
    interval.lower < 4 * units && 4 * units < interval.upper

end Interval

/-- Of the two multiples of `10 ^ place` around the value, the nearest one inside the interval; the
even one when both are equally near. -/
def candidate (interval : Interval) (value place : Nat) : Option Nat :=
  let grid := Nat.pow 10 place
  let below := value / grid
  let rest := value % grid
  match interval.contains (below * grid), interval.contains ((below + 1) * grid) with
  | false, false => none
  | true, false => some below
  | false, true => some (below + 1)
  | true, true =>
      match compare (2 * rest) grid with
      | .lt => some below
      | .eq => some (below + below % 2)
      | .gt => some (below + 1)

/-- The first hit at `place` or a finer one. -/
def search (interval : Interval) (value : Nat) : (place : Nat) → Decimal
  | 0 => ⟨value, 0⟩
  | place + 1 =>
      match candidate interval value (place + 1) with
      | some digits => ⟨digits, place + 1⟩
      | none => search interval value place

/-- A place above the first digit of the magnitude: `2 ^ b` has at most `b * 1233 / 4096 + 1` digits before
the point, `1233 / 4096` being just below the decimal logarithm of two. -/
def coarsestPlace (magnitude : Magnitude) : Nat :=
  let binaryDigits : Int := (magnitude.units.log2 : Int) - 1073
  (binaryDigits * 1233 / 4096 + 2 + 1074).toNat

def shortest (magnitude : Magnitude) : Decimal :=
  search (.ofMagnitude magnitude) (magnitude.units * fivePower) (coarsestPlace magnitude)

end Decimal

end LoxLang
