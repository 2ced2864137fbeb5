import LoxLang.Proofs.Binary64.Words
import LoxLang.Proofs.Decimal.Reading
import LoxLang.Proofs.Token.Layout
import LoxLang.Value.Operation
import LoxLang.Value.Text

/-!
Numbers that are printed can be read. Two formats are in use, all digits for a whole number and the shortest decimal for
another one; neither has an exponent unless a number that is not whole is small, so that what is printed are
tokens, which stand for the same number bit for bit.
-/

namespace LoxLang.Number

open Binary64 (Magnitude Parts nearest unitsPerOne)

variable {number other : Float} {negative : Bool} {magnitude : Magnitude}

/-- A finite number that is whole or, but for its sign, no less than `10 ^ (-4)`. -/
structure Plain (number : Float) (negative : Bool) (magnitude : Magnitude) : Prop where
  finite : Parts.ofFloat number = .finite negative magnitude
  size : magnitude.whole?.isSome = true ∨ unitsPerOne ≤ 10 ^ 4 * magnitude.units

/-! ## Magnitudes -/

theorem units_of_whole? {whole : Nat} (h : magnitude.whole? = some whole) : whole * unitsPerOne = magnitude.units := by
  unfold Magnitude.whole? at h
  split at h
  · next exact =>
    cases h
    exact Nat.div_mul_cancel (Nat.dvd_of_mod_eq_zero exact)
  · cases h

/-- What is written for a whole magnitude stands for it. -/
theorem attracts_whole {whole : Nat} (h : magnitude.whole? = some whole) :
    magnitude.Attracts (whole * unitsPerOne) 1 := by
  have fits := Decimal.fits_of_contains (Decimal.contains_centre magnitude)
  refine fits.attracts Nat.one_pos ?_
  rw [← Nat.mul_assoc, units_of_whole? h, Nat.mul_one]

theorem pow_le_shortest (large : unitsPerOne ≤ 10 ^ 4 * magnitude.units) :
    10 ^ (1074 - 4) ≤ (Decimal.shortest magnitude).units := by
  have le : 4 ≤ 1074 := by decide
  have one := Decimal.one_eq_pow_mul_pow le
  generalize 1074 = exponent at *
  refine Decimal.pow_le_units_shortest (Nat.le_of_mul_le_mul_left ?_ (Nat.pow_pos (by decide) : 0 < 10 ^ 4))
  rw [← one, ← Nat.mul_assoc]
  exact Nat.mul_le_mul_right _ large

/-- The shortest decimal of a magnitude that is neither whole nor small has no exponent. -/
theorem magnitudeText_broken (proper : magnitude.Proper) (broken : magnitude.whole? = none)
    (large : unitsPerOne ≤ 10 ^ 4 * magnitude.units) :
    magnitudeText magnitude =
      layout.positional (Nat.toDigits 10 (Decimal.shortest magnitude).digits) (Decimal.shortest magnitude).point := by
  have reached := pow_le_shortest large
  have small := Decimal.units_shortest_lt proper broken
  have written : magnitudeText magnitude = layout.write (.shortest magnitude) := by rw [magnitudeText, broken]
  rw [written]
  generalize Decimal.shortest magnitude = decimal at *
  have nonzero := Decimal.digits_ne_zero reached
  have lowest : -((4 : Nat) : Int) < decimal.point := Decimal.lowest_lt_point reached
  have highest : decimal.point ≤ (16 : Nat) := Decimal.point_le_highest nonzero small
  unfold Decimal.Layout.write
  simp only [if_neg nonzero]
  exact if_pos ⟨lowest, highest⟩

/-- The digits of a number stand for its magnitude. -/
theorem numeral_magnitudeText (h : Plain number negative magnitude) :
    ∃ dividend divisor, Numeral (magnitudeText magnitude) dividend divisor ∧
      magnitude.Attracts (dividend * unitsPerOne) divisor := by
  obtain ⟨proper, -, -⟩ := Binary64.Parts.finite_ofWord h.finite
  cases whole : magnitude.whole? with
  | some value =>
      refine ⟨value, 1, ?_, attracts_whole whole⟩
      rw [magnitudeText, whole]
      exact numeral_toDigits value
  | none =>
      have large := h.size.resolve_left (by rw [whole]; exact Bool.false_ne_true)
      have denoted : (Decimal.shortest magnitude).Denoted (layout.positional _ _) :=
        Decimal.denoted_positional (.inl rfl) _
      obtain ⟨dividend, divisor, numeral, same⟩ := denoted
      refine ⟨dividend, divisor, ?_, (Decimal.fits_shortest magnitude).attracts numeral.pos same⟩
      rwa [magnitudeText_broken proper whole large]

/-! ## Tokens -/

theorem cuts_numeral {text : List Char} {dividend divisor : Nat} (h : Numeral text dividend divisor) :
    Piece.Cuts [⟨.number, text⟩] text := by
  cases text with
  | nil => exact absurd rfl h.spells.ne_nil
  | cons first body =>
      have cuts := Piece.Cuts.cons (h.spells.begin rfl nofun Piece.parted_nil) .nil
      rwa [List.append_nil] at cuts

/-- A text is read, with no errors, as a number after a minus sign or as a number alone, and this has the value. -/
structure Reads (text : String) (negative : Bool) (number : Float) : Prop where
  sound : (Tokens.ofText text).errors = []
  tokens : ∃ digits literal,
    (Tokens.ofText text).tokens.map Token.content =
      (if negative then [(.minus, "-", .none)] else []) ++
        [(.number, digits, .number literal), (.endOfInput, "", .none)] ∧
    (if negative then (Value.number literal).applyUnary ⟨.minus, "-", .none, 1⟩ else .ok (.number literal)) =
      .ok (.number number)

theorem reads_text (h : Plain number negative magnitude) : Reads (text number) negative number := by
  obtain ⟨dividend, divisor, numeral, attracts⟩ := numeral_magnitudeText h
  have rounded := Binary64.nearest_eq h.finite numeral.pos attracts
  rw [← numeral.readNumber_eq] at rounded
  have written : (text number).toList =
      if negative then '-' :: magnitudeText magnitude else magnitudeText magnitude := by
    rw [text, h.finite, String.toList_ofList]
  have cuts := cuts_numeral numeral
  cases negative with
  | false =>
      have cut : Piece.cut (text number).toList = [⟨.number, magnitudeText magnitude⟩] := by
        rw [written]
        exact cuts.cut_eq
      refine ⟨Tokens.errors_ofText ?_, .ofList (magnitudeText magnitude), readNumber (magnitudeText magnitude), ?_, ?_⟩
      · rw [cut]
        exact List.forall_mem_singleton.mpr nofun
      · rw [Tokens.content_ofText, cut]
        rfl
      · exact congrArg (Except.ok ∘ Value.number) rounded
  | true =>
      have minus : Piece.Cuts (⟨.symbol .minus, ['-']⟩ :: [⟨.number, magnitudeText magnitude⟩])
          ('-' :: ([] ++ magnitudeText magnitude)) := .cons rfl cuts
      have cut : Piece.cut (text number).toList =
          [⟨.symbol .minus, ['-']⟩, ⟨.number, magnitudeText magnitude⟩] := by
        rw [written]
        exact minus.cut_eq
      refine ⟨Tokens.errors_ofText ?_, .ofList (magnitudeText magnitude), readNumber (magnitudeText magnitude), ?_, ?_⟩
      · rw [cut]
        exact List.forall_mem_cons.mpr ⟨nofun, List.forall_mem_singleton.mpr nofun⟩
      · rw [Tokens.content_ofText, cut]
        rfl
      · exact congrArg (Except.ok ∘ Value.number) rounded

/-- A text stands for one number at most. -/
theorem Reads.unique {text : String} {sign : Bool} (first : Reads text negative number)
    (second : Reads text sign other) : other = number := by
  obtain ⟨-, digits, literal, contents, value⟩ := first
  obtain ⟨-, digits', literal', contents', value'⟩ := second
  rw [contents] at contents'
  cases negative <;> cases sign
  · cases contents'
    exact Value.number.inj (Except.ok.inj (value'.symm.trans value))
  · cases contents'
  · cases contents'
  · cases contents'
    exact Value.number.inj (Except.ok.inj (value'.symm.trans value))

/-- What is printed for a number that is whole or not small is read as the number, bit for bit and with a sign where it
has one. So no other such number is printed in the same way; and all digits of a whole number are printed, and
nothing else but its sign. -/
theorem text_reads_back (h : Plain number negative magnitude) :
    negative = decide (2 ^ 63 ≤ number.toBits.toNat) ∧ Reads (text number) negative number ∧
      (∀ other sign size, Plain other sign size → text other = text number → other = number) ∧
      ∀ whole, magnitude.whole? = some whole → whole * unitsPerOne = magnitude.units ∧
        text number = .ofList ((if negative then ['-'] else []) ++ Nat.toDigits 10 whole) := by
  obtain ⟨-, sign, -⟩ := Binary64.Parts.finite_ofWord h.finite
  refine ⟨sign, reads_text h, fun other _ _ plain same => ?_, fun whole value => ⟨units_of_whole? value, ?_⟩⟩
  · have reads := reads_text plain
    rw [same] at reads
    exact (reads_text h).unique reads
  · rw [text, h.finite]
    simp only [magnitudeText, value]
    cases negative <;> rfl

/-- One tenth, which no number of the format is, is read as the number nearest to it. -/
theorem text_reads_back_tenth :
    text (.ofBits 0xBFB999999999999A) = "-0.1" ∧ Reads "-0.1" true (.ofBits 0xBFB999999999999A) := by
  have plain : Plain (.ofBits 0xBFB999999999999A) true ⟨0x1999999999999A, 1018⟩ :=
    ⟨by decide +kernel, .inr (by decide +kernel)⟩
  have written : text (.ofBits 0xBFB999999999999A) = "-0.1" := by decide +kernel
  obtain ⟨-, reads, -⟩ := text_reads_back plain
  exact ⟨written, written ▸ reads⟩

end LoxLang.Number
