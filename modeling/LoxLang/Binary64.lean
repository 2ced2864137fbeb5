/-!
Binary64 numbers taken apart and put together exactly.

Every finite number of the format is a whole multiple of the unit `2 ^ (-1074)`, so a magnitude is
a significand below `2 ^ 53` and the number of times it is doubled. With the significand's leading
bit counted into the exponent field, the word of a magnitude is `shift * 2 ^ 52 + significand`;
a significand that rounding carries to `2 ^ 53` moves to the next exponent by that same sum.
-/

namespace LoxLang.Binary64

/-- One over the unit of which every finite number is a multiple. -/
def unitsPerOne : Nat := Nat.pow 2 1074

/-- The magnitude `significand * 2 ^ shift` in units. -/
structure Magnitude where
  significand : Nat
  shift : Nat
  deriving DecidableEq

namespace Magnitude

def units (magnitude : Magnitude) : Nat :=
  magnitude.significand * Nat.pow 2 magnitude.shift

def word (magnitude : Magnitude) : Nat :=
  magnitude.shift * Nat.pow 2 52 + magnitude.significand

/-- The magnitude with exponent field `exponent` and fraction field `fraction`. -/
def ofFields (exponent fraction : Nat) : Magnitude :=
  if exponent = 0 then ⟨fraction, 0⟩ else ⟨Nat.pow 2 52 + fraction, exponent - 1⟩

/-- The whole number that the magnitude is, if it is one. -/
def whole? (magnitude : Magnitude) : Option Nat :=
  if magnitude.units % unitsPerOne = 0 then some (magnitude.units / unitsPerOne) else none

end Magnitude

inductive Parts where
  | nan
  | infinite (negative : Bool)
  | finite (negative : Bool) (magnitude : Magnitude)
  deriving DecidableEq

namespace Parts

def ofWord (word : Nat) : Parts :=
  let negative := decide (Nat.pow 2 63 ≤ word)
  let exponent := word / Nat.pow 2 52 % Nat.pow 2 11
  let fraction := word % Nat.pow 2 52
  if exponent = 2047 then
    if fraction = 0 then .infinite negative else .nan
  else
    .finite negative (.ofFields exponent fraction)

def ofFloat (number : Float) : Parts :=
  ofWord number.toBits.toNat

end Parts

/-- The quotient rounded to the nearest whole number, a half to the even one. -/
def roundHalfEven (dividend divisor : Nat) : Nat :=
  let quotient := dividend / divisor
  match compare (2 * (dividend % divisor)) divisor with
  | .lt => quotient
  | .eq => quotient + quotient % 2
  | .gt => quotient + 1

/-- The magnitude nearest to a quotient. The shift is the least one at which the significand stays
below `2 ^ 53`, up to the carry of rounding. -/
def nearestMagnitude (dividend divisor : Nat) : Magnitude :=
  let units := dividend * unitsPerOne
  let shift := (units / divisor).log2 - 52
  ⟨roundHalfEven units (divisor * Nat.pow 2 shift), shift⟩

/-- The word of infinity, which every word of a finite magnitude is below. -/
def infinityWord : Nat := 2047 * Nat.pow 2 52

/-- The number nearest to a quotient, infinite when the quotient is past the largest magnitude. -/
def nearest (dividend divisor : Nat) : Float :=
  .ofBits (UInt64.ofNat (min (nearestMagnitude dividend divisor).word infinityWord))

end LoxLang.Binary64
