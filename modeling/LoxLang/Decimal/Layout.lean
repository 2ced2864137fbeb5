import LoxLang.Decimal.Shortest

/-!
Decimals in writing. A layout says for which magnitudes the digits are written positionally, what
follows a whole number, and how wide an exponent is.
-/

namespace LoxLang.Decimal

/-- With the decimal read as `0.d₁d₂… * 10 ^ point`, it is positional when `lowest < point` and
`point ≤ highest`. -/
structure Layout where
  lowest : Int
  highest : Int
  wholeSuffix : List Char
  exponentWidth : Nat

namespace Layout

def positional (layout : Layout) (digits : List Char) (point : Int) : List Char :=
  if point ≤ 0 then
    '0' :: '.' :: (List.replicate (-point).toNat '0' ++ digits)
  else if point < digits.length then
    digits.take point.toNat ++ '.' :: digits.drop point.toNat
  else
    digits ++ List.replicate (point.toNat - digits.length) '0' ++ layout.wholeSuffix

/-- One digit, the others after a point, and the signed power of ten. -/
def scientific (layout : Layout) (digits : List Char) (point : Int) : List Char :=
  let mantissa := match digits with
    | [] => []
    | [digit] => [digit]
    | digit :: others => digit :: '.' :: others
  let power := point - 1
  let sign := if power < 0 then '-' else '+'
  let powerDigits := Nat.toDigits 10 power.natAbs
  mantissa ++ 'e' :: sign ::
    (List.replicate (layout.exponentWidth - powerDigits.length) '0' ++ powerDigits)

def write (layout : Layout) (decimal : Decimal) : List Char :=
  let digits := Nat.toDigits 10 decimal.digits
  if decimal.digits = 0 then
    '0' :: layout.wholeSuffix
  else
    let point := (digits.length : Int) + decimal.exponent
    if layout.lowest < point ∧ point ≤ layout.highest then
      layout.positional digits point
    else
      layout.scientific digits point

end Layout

end LoxLang.Decimal
