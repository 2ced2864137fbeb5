import LoxLang.Decimal.Layout
import LoxLang.Value.Basic

/-!
The text of a value, as it is printed.
-/

namespace LoxLang

namespace Number

/-- Numbers that are not whole have no more than 16 digits before the point. -/
def layout : Decimal.Layout :=
  ⟨-4, 16, [], 2⟩

/-- A whole number is written with all its digits, another one with the fewest that read back. -/
def magnitudeText (magnitude : Binary64.Magnitude) : List Char :=
  match magnitude.whole? with
  | some whole => Nat.toDigits 10 whole
  | none => layout.write (.shortest magnitude)

def text (number : Float) : String :=
  match Binary64.Parts.ofFloat number with
  | .nan => "NaN"
  | .infinite negative => if negative then "-inf" else "inf"
  | .finite negative magnitude =>
      let digits := magnitudeText magnitude
      .ofList (if negative then '-' :: digits else digits)

end Number

def Value.toText : Value → String
  | .nil => "nil"
  | .bool value => if value then "true" else "false"
  | .number value => Number.text value
  | .text value => value
  | .function closure => s!"<fn {closure.declaration.name.lexeme}>"
  | .class value => value.own.name
  | .instance value => s!"{value.kind.own.name} instance"
  | .native _ => "<native fn>"

end LoxLang
