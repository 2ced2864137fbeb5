import LoxLang.Decimal.Layout
import LoxLang.Proofs.Decimal.Shortest
import LoxLang.Proofs.Token.Munch
import LoxLang.Proofs.Token.Pieces
import LoxLang.Token.Reading

/-!
Decimals that are read. The text of a decimal is digits, with or without a point among them, and stands for a quotient;
a decimal that is written positionally stands for its own value.
-/

namespace LoxLang

open Binary64 (unitsPerOne)
open Piece (Digits)

/-- The text of a decimal and the quotient that it stands for. -/
inductive Numeral : List Char → (dividend divisor : Nat) → Prop
  | whole {digits : List Char} : Digits digits → Numeral digits (Nat.ofDigitChars 10 digits 0) 1
  | fraction {whole places : List Char} : Digits whole → Digits places →
      Numeral (whole ++ '.' :: places) (Nat.ofDigitChars 10 (whole ++ places) 0) (10 ^ places.length)

theorem not_point_of_isDigit {character : Char} (digit : isDigit character = true) :
    decide (character ≠ '.') = true := by
  refine decide_eq_true fun same => ?_
  subst same
  cases digit

namespace Numeral

variable {text : List Char} {dividend divisor : Nat}

theorem spells (h : Numeral text dividend divisor) : Piece.Spells .number text := by
  cases h with
  | whole digits => exact .whole digits
  | fraction whole places => exact .fraction whole places

theorem pos (h : Numeral text dividend divisor) : 0 < divisor := by
  cases h with
  | whole => exact Nat.one_pos
  | fraction => exact Nat.pow_pos (by decide)

theorem readNumber_eq (h : Numeral text dividend divisor) : readNumber text = Binary64.nearest dividend divisor := by
  cases h with
  | whole digits =>
      have all : (text ++ []).takeWhile (· ≠ '.') = text :=
        Piece.takeWhile_eq_of_ends (fun character member => not_point_of_isDigit (digits.digits character member)) rfl
      rw [List.append_nil] at all
      simp only [readNumber, all, List.drop_length, List.drop_nil, List.append_nil, List.length_nil]
  | @fraction whole places digits _ =>
      have before : (whole ++ '.' :: places).takeWhile (· ≠ '.') = whole :=
        Piece.takeWhile_eq_of_ends (fun character member => not_point_of_isDigit (digits.digits character member)) rfl
      simp only [readNumber, before, List.drop_left, List.drop_one, List.tail_cons]
      rfl

end Numeral

theorem digits_toDigits (number : Nat) : Digits (Nat.toDigits 10 number) where
  nonempty := Nat.toDigits_ne_nil
  digits := by
    intro character member
    have digit : character.isDigit = true := Nat.isDigit_of_mem_toDigits (by decide) (by decide) member
    exact digit

theorem digits_zeros {count : Nat} : ∀ character ∈ List.replicate count '0', isDigit character = true := by
  intro character member
  rw [List.eq_of_mem_replicate member]
  rfl

theorem digits_zero : Digits ['0'] :=
  ⟨List.cons_ne_nil _ _, List.forall_mem_singleton.mpr rfl⟩

/-- A whole number with all its digits. -/
theorem numeral_toDigits (number : Nat) : Numeral (Nat.toDigits 10 number) number 1 := by
  have numeral := Numeral.whole (digits_toDigits number)
  rwa [Nat.ofDigitChars_ten_toDigits] at numeral

/-- A whole number keeps its value where a zero follows a point. -/
theorem numeral_append {digits suffix : List Char} (h : Digits digits) (form : suffix = [] ∨ suffix = ['.', '0']) :
    ∃ dividend divisor, Numeral (digits ++ suffix) dividend divisor ∧
      dividend = Nat.ofDigitChars 10 digits 0 * divisor := by
  rcases form with rfl | rfl
  · rw [List.append_nil]
    exact ⟨_, _, .whole h, (Nat.mul_one _).symm⟩
  · refine ⟨_, _, .fraction h digits_zero, ?_⟩
    have zeros (init : Nat) : Nat.ofDigitChars 10 ['0'] init = 10 ^ 1 * init :=
      @Nat.ofDigitChars_replicate_zero 10 init 1
    rw [Nat.ofDigitChars_append, zeros, Nat.mul_comm]
    rfl

namespace Decimal

variable {decimal : Decimal} {layout : Layout}

/-- The digits before the point, if the decimal is written with none after zeros. -/
def point (decimal : Decimal) : Int :=
  ((Nat.toDigits 10 decimal.digits).length : Int) + decimal.exponent

/-- The text is a numeral that stands for the value of the decimal. -/
def Denoted (decimal : Decimal) (text : List Char) : Prop :=
  ∃ dividend divisor, Numeral text dividend divisor ∧
    dividend * (unitsPerOne * fivePower) = decimal.units * divisor

section Denoted

variable {text whole places suffix : List Char}

theorem denoted_fraction (h : Digits whole) (h' : Digits places)
    (value : Nat.ofDigitChars 10 (whole ++ places) 0 = decimal.digits)
    (count : places.length + decimal.place = 1074) : decimal.Denoted (whole ++ '.' :: places) := by
  have fine : decimal.place ≤ 1074 := by omega
  have length : places.length = 1074 - decimal.place := by omega
  refine ⟨_, _, .fraction h h', ?_⟩
  rw [length, value, one_eq_pow_mul_pow fine, ← Nat.mul_assoc]
  rfl

/-- Zeros stand between the point and the digits. -/
theorem denoted_leading (h : Digits text) (value : Nat.ofDigitChars 10 text 0 = decimal.digits) {zeros : Nat}
    (count : zeros + text.length + decimal.place = 1074) :
    decimal.Denoted ('0' :: '.' :: (List.replicate zeros '0' ++ text)) := by
  have places : Digits (List.replicate zeros '0' ++ text) := by
    refine ⟨List.append_ne_nil_of_right_ne_nil _ h.nonempty, fun character member => ?_⟩
    exact (List.mem_append.mp member).elim (digits_zeros character) (h.digits character)
  refine denoted_fraction digits_zero places ?_ ?_
  · rw [Nat.ofDigitChars_append, Nat.ofDigitChars_append, Nat.ofDigitChars_replicate_zero]
    exact value
  · rw [List.length_append, List.length_replicate, count]

/-- The point stands among the digits. -/
theorem denoted_among (h : Digits text) (value : Nat.ofDigitChars 10 text 0 = decimal.digits) {count : Nat}
    (some : 0 < count) (less : count < text.length) (rest : text.length - count + decimal.place = 1074) :
    decimal.Denoted (text.take count ++ '.' :: text.drop count) := by
  have before : Digits (text.take count) := by
    refine ⟨fun nothing => ?_, fun character member => h.digits character (List.mem_of_mem_take member)⟩
    have := congrArg List.length nothing
    rw [List.length_take, List.length_nil] at this
    omega
  have behind : Digits (text.drop count) := by
    refine ⟨fun nothing => ?_, fun character member => h.digits character (List.mem_of_mem_drop member)⟩
    have := congrArg List.length nothing
    rw [List.length_drop, List.length_nil] at this
    omega
  refine denoted_fraction before behind ?_ ?_
  · rw [List.take_append_drop, value]
  · rw [List.length_drop, rest]

/-- Zeros stand behind the digits. -/
theorem denoted_trailing (h : Digits text) (value : Nat.ofDigitChars 10 text 0 = decimal.digits)
    (coarse : 1074 ≤ decimal.place) (form : suffix = [] ∨ suffix = ['.', '0']) :
    decimal.Denoted (text ++ List.replicate (decimal.place - 1074) '0' ++ suffix) := by
  have all : Digits (text ++ List.replicate (decimal.place - 1074) '0') := by
    refine ⟨List.append_ne_nil_of_left_ne_nil h.nonempty _, fun character member => ?_⟩
    exact (List.mem_append.mp member).elim (h.digits character) (digits_zeros character)
  obtain ⟨dividend, divisor, numeral, scaled⟩ := numeral_append all form
  refine ⟨dividend, divisor, numeral, ?_⟩
  rw [Nat.ofDigitChars_append, value, Nat.ofDigitChars_replicate_zero] at scaled
  change dividend * _ = decimal.digits * 10 ^ decimal.place * divisor
  rw [scaled, ← one_mul_pow_eq_pow coarse]
  ring

/-- A decimal that is written positionally stands for its own value. -/
theorem denoted_positional (form : layout.wholeSuffix = [] ∨ layout.wholeSuffix = ['.', '0']) (decimal : Decimal) :
    decimal.Denoted (layout.positional (Nat.toDigits 10 decimal.digits) decimal.point) := by
  have digits := digits_toDigits decimal.digits
  have value : Nat.ofDigitChars 10 (Nat.toDigits 10 decimal.digits) 0 = decimal.digits :=
    Nat.ofDigitChars_ten_toDigits
  have point_eq : decimal.point = ((Nat.toDigits 10 decimal.digits).length : Int) + (decimal.place - 1074) := rfl
  generalize Nat.toDigits 10 decimal.digits = text at *
  unfold Layout.positional
  split
  · next before => exact denoted_leading digits value (by omega)
  split
  · next behind among => exact denoted_among digits value (by omega) (by omega) (by omega)
  · next behind after =>
    have zeros : decimal.point.toNat - text.length = decimal.place - 1074 := by omega
    rw [zeros]
    exact denoted_trailing digits value (by omega) form

end Denoted

theorem lt_pow_length (number : Nat) : number < 10 ^ (Nat.toDigits 10 number).length :=
  (Nat.length_toDigits_le_iff (by decide) Nat.length_toDigits_pos).mp (Nat.le_refl _)

theorem pow_length_le {number : Nat} (nonzero : number ≠ 0) : 10 ^ ((Nat.toDigits 10 number).length - 1) ≤ number := by
  rcases Nat.eq_zero_or_pos ((Nat.toDigits 10 number).length - 1) with single | more
  · rw [single]
    exact Nat.pos_of_ne_zero nonzero
  · refine Nat.le_of_not_lt fun less => ?_
    have := (Nat.length_toDigits_le_iff (by decide) more).mpr less
    omega

theorem digits_ne_zero {place : Nat} (reached : 10 ^ place ≤ decimal.units) : decimal.digits ≠ 0 := by
  intro zero
  rw [Decimal.units, zero, Nat.zero_mul] at reached
  exact absurd reached (Nat.not_le.mpr (Nat.pow_pos (by decide)))

/-- A decimal that is not too small is written positionally. -/
theorem lowest_lt_point {lowest : Nat} (reached : 10 ^ (1074 - lowest) ≤ decimal.units) :
    -(lowest : Int) < decimal.point := by
  have less := lt_pow_length decimal.digits
  have point_eq : decimal.point = ((Nat.toDigits 10 decimal.digits).length : Int) + (decimal.place - 1074) := rfl
  generalize (Nat.toDigits 10 decimal.digits).length = length at *
  refine lt_of_not_ge fun small => absurd reached (Nat.not_le.mpr ?_)
  calc decimal.digits * 10 ^ decimal.place < 10 ^ length * 10 ^ decimal.place :=
        Nat.mul_lt_mul_of_pos_right less (Nat.pow_pos (by decide))
    _ = 10 ^ (length + decimal.place) := (Nat.pow_add _ _ _).symm
    _ ≤ 10 ^ (1074 - lowest) := Nat.pow_le_pow_right (by decide) (by omega)

/-- A decimal that is not too large is written positionally. -/
theorem point_le_highest {highest : Nat} (nonzero : decimal.digits ≠ 0)
    (small : decimal.units < 10 ^ highest * (unitsPerOne * fivePower)) : decimal.point ≤ highest := by
  have least := pow_length_le nonzero
  have point_eq : decimal.point = ((Nat.toDigits 10 decimal.digits).length : Int) + (decimal.place - 1074) := rfl
  generalize (Nat.toDigits 10 decimal.digits).length = length at *
  refine le_of_not_gt fun large => absurd small (Nat.not_lt.mpr ?_)
  have coarse : 1074 ≤ length - 1 + decimal.place := by omega
  calc 10 ^ highest * (unitsPerOne * fivePower)
      ≤ 10 ^ (length - 1 + decimal.place - 1074) * (unitsPerOne * fivePower) :=
        Nat.mul_le_mul_right _ (Nat.pow_le_pow_right (by decide) (by omega))
    _ = 10 ^ (length - 1 + decimal.place) := by rw [Nat.mul_comm, one_mul_pow_eq_pow coarse]
    _ = 10 ^ (length - 1) * 10 ^ decimal.place := Nat.pow_add _ _ _
    _ ≤ decimal.digits * 10 ^ decimal.place := Nat.mul_le_mul_right _ least

end Decimal

end LoxLang
