import LoxLang.Proofs.Binary64.Words
import LoxLang.Proofs.Decimal.Reading
import LoxLang.Proofs.Notation.Showing

/-!
Numbers in listings. The text of a finite number is a numeral or has an exponent; a numeral is read as the
number, and from a text with an exponent the digits and the exponent are read off. So no two numbers are
written alike.
-/

namespace LoxLang

open Binary64 (Magnitude Parts nearest unitsPerOne)
open Decimal (fivePower)
open Notation
open Piece (Digits)

/-! ## Characters -/

/-- The characters that are no digits but stand in the texts of numbers. -/
def numberSigns : List Char :=
  ['.', 'e', '-', '+', 'n', 'a', 'i', 'f']

/-- A character of the text of a number. -/
def IsNumeric (character : Char) : Prop :=
  isDigit character = true ∨ character ∈ numberSigns

theorem ne_of_isDigit {character symbol : Char} (digit : isDigit character = true)
    (plain : isDigit symbol = false) : character ≠ symbol := by
  rintro rfl
  rw [digit] at plain
  cases plain

theorem not_isCloser_of_isNumeric {character : Char} (numeric : IsNumeric character) :
    (!isCloser character) = true := by
  rcases numeric with digit | symbol
  · have comma := ne_of_isDigit digit (rfl : isDigit ',' = false)
    have round := ne_of_isDigit digit (rfl : isDigit ')' = false)
    have square := ne_of_isDigit digit (rfl : isDigit ']' = false)
    simp [isCloser, comma, round, square]
  · have all : (numberSigns.all fun sign => !isCloser sign) = true := rfl
    exact List.all_eq_true.mp all character symbol

/-- The text begins with a digit. -/
def OpensDigit (text : List Char) : Prop :=
  ∃ first more, text = first :: more ∧ isDigit first = true

theorem Piece.Digits.opens {digits : List Char} (h : Digits digits) (more : List Char) :
    OpensDigit (digits ++ more) := by
  obtain ⟨first, others, rfl⟩ := List.exists_cons_of_ne_nil h.nonempty
  exact ⟨first, others ++ more, rfl, h.digits first (List.mem_cons_self ..)⟩

namespace Numeral

variable {text : List Char} {dividend divisor : Nat}

theorem opens (h : Numeral text dividend divisor) : OpensDigit text := by
  cases h with
  | whole digits => exact List.append_nil text ▸ digits.opens []
  | fraction whole places => exact whole.opens _

theorem characters (h : Numeral text dividend divisor) :
    ∀ character ∈ text, isDigit character = true ∨ character = '.' := by
  intro character member
  cases h with
  | whole digits => exact .inl (digits.digits character member)
  | fraction whole places =>
      rcases List.mem_append.mp member with before | behind
      · exact .inl (whole.digits character before)
      rcases List.mem_cons.mp behind with point | after
      · exact .inr point
      · exact .inl (places.digits character after)

end Numeral

/-! ## Exponents -/

/-- What stands before an exponent. -/
def mantissa : List Char → List Char
  | [] => []
  | [digit] => [digit]
  | digit :: others => digit :: '.' :: others

def exponentSign (point : Int) : Char :=
  if point - 1 < 0 then '-' else '+'

/-- What stands behind the sign of an exponent. -/
def powerDigits (layout : Decimal.Layout) (point : Int) : List Char :=
  let digits := Nat.toDigits 10 (point - 1).natAbs
  List.replicate (layout.exponentWidth - digits.length) '0' ++ digits

theorem scientific_eq (layout : Decimal.Layout) (digits : List Char) (point : Int) :
    layout.scientific digits point = mantissa digits ++ 'e' :: exponentSign point :: powerDigits layout point := by
  cases digits with
  | nil => rfl
  | cons first others => cases others <;> rfl

theorem opens_mantissa {digits : List Char} (h : Digits digits) : OpensDigit (mantissa digits) := by
  obtain ⟨first, others, rfl⟩ := List.exists_cons_of_ne_nil h.nonempty
  have digit := h.digits first (List.mem_cons_self ..)
  cases others with
  | nil => exact ⟨first, [], rfl, digit⟩
  | cons second others => exact ⟨first, _, rfl, digit⟩

/-- The digits are what is left of a mantissa without its point. -/
theorem filter_mantissa {digits : List Char} (all : ∀ character ∈ digits, isDigit character = true) :
    (mantissa digits).filter (· ≠ '.') = digits := by
  have kept : digits.filter (· ≠ '.') = digits :=
    List.filter_eq_self.mpr fun character member => not_point_of_isDigit (all character member)
  cases digits with
  | nil => rfl
  | cons first others =>
      cases others with
      | nil => exact kept
      | cons second others =>
          have digit := not_point_of_isDigit (all first (List.mem_cons_self ..))
          change (first :: '.' :: second :: others).filter (· ≠ '.') = _
          rw [List.filter_cons, if_pos digit] at kept ⊢
          exact kept

theorem mem_mantissa {digits : List Char} (all : ∀ character ∈ digits, isDigit character = true) :
    ∀ character ∈ mantissa digits, isDigit character = true ∨ character = '.' := by
  intro character member
  by_cases point : character = '.'
  · exact .inr point
  · have kept : character ∈ (mantissa digits).filter (· ≠ '.') :=
      List.mem_filter.mpr ⟨member, decide_eq_true point⟩
    rw [filter_mantissa all] at kept
    exact .inl (all character kept)

theorem isDigit_powerDigits (layout : Decimal.Layout) (point : Int) :
    ∀ character ∈ powerDigits layout point, isDigit character = true := by
  intro character member
  exact (List.mem_append.mp member).elim (digits_zeros character) ((digits_toDigits _).digits character)

theorem ofDigitChars_powerDigits (layout : Decimal.Layout) (point : Int) :
    Nat.ofDigitChars 10 (powerDigits layout point) 0 = (point - 1).natAbs := by
  rw [powerDigits, Nat.ofDigitChars_append, Nat.ofDigitChars_replicate_zero, Nat.mul_zero]
  exact Nat.ofDigitChars_ten_toDigits

theorem eq_of_exponentSign {point other : Int} (signs : exponentSign point = exponentSign other)
    (powers : (point - 1).natAbs = (other - 1).natAbs) : point = other := by
  unfold exponentSign at signs
  split at signs <;> split at signs
  · omega
  · exact absurd signs (by decide)
  · exact absurd signs (by decide)
  · omega

/-- Digits and exponent are read off. -/
theorem scientific_inj {layout : Decimal.Layout} {digits others : List Char} (h : Digits digits)
    (h' : Digits others) {point other : Int}
    (same : layout.scientific digits point = layout.scientific others other) : digits = others ∧ point = other := by
  have plain {digits : List Char} (h : Digits digits) :
      ∀ character ∈ mantissa digits, decide (character ≠ 'e') = true := by
    intro character member
    rcases mem_mantissa h.digits character member with digit | rfl
    · exact decide_eq_true (ne_of_isDigit digit rfl)
    · rfl
  rw [scientific_eq, scientific_eq] at same
  obtain ⟨mantissas, behind⟩ := append_inj_of_ends (plain h) (plain h') rfl rfl same
  obtain ⟨signs, powers⟩ := List.cons.inj (List.cons.inj behind).2
  refine ⟨?_, eq_of_exponentSign signs ?_⟩
  · rw [← filter_mantissa h.digits, mantissas, filter_mantissa h'.digits]
  · rw [← ofDigitChars_powerDigits layout point, powers, ofDigitChars_powerDigits]

/-! ## Finite numbers -/

/-- How a decimal is written. -/
inductive Writes (layout : Decimal.Layout) (decimal : Decimal) (text : List Char) : Prop
  | numeral : decimal.Denoted text → Writes layout decimal text
  | exponent : text = layout.scientific (Nat.toDigits 10 decimal.digits) decimal.point → Writes layout decimal text

theorem writes_write {layout : Decimal.Layout} (form : layout.wholeSuffix = [] ∨ layout.wholeSuffix = ['.', '0'])
    (decimal : Decimal) : Writes layout decimal (layout.write decimal) := by
  unfold Decimal.Layout.write
  simp only
  split
  · next none =>
    obtain ⟨dividend, divisor, numeral, scaled⟩ := numeral_append digits_zero form
    have nothing : dividend = 0 := scaled.trans (Nat.zero_mul _)
    refine .numeral ⟨dividend, divisor, numeral, ?_⟩
    rw [nothing, Nat.zero_mul, Decimal.units, none, Nat.zero_mul, Nat.zero_mul]
  split
  · exact .numeral (Decimal.denoted_positional form decimal)
  · exact .exponent rfl

namespace Writes

variable {layout : Decimal.Layout} {decimal : Decimal} {text : List Char}

theorem opens (h : Writes layout decimal text) : OpensDigit text := by
  cases h with
  | numeral denoted =>
      obtain ⟨dividend, divisor, numeral, -⟩ := denoted
      exact numeral.opens
  | exponent written =>
      obtain ⟨first, more, begins, digit⟩ := opens_mantissa (digits_toDigits decimal.digits)
      rw [written, scientific_eq, begins]
      exact ⟨first, _, rfl, digit⟩

theorem isNumeric (h : Writes layout decimal text) : ∀ character ∈ text, IsNumeric character := by
  have widen {character : Char} (plain : isDigit character = true ∨ character = '.') : IsNumeric character :=
    plain.imp_right fun point => List.mem_cons.mpr (.inl point)
  intro character member
  cases h with
  | numeral denoted =>
      obtain ⟨dividend, divisor, numeral, -⟩ := denoted
      exact widen (numeral.characters character member)
  | exponent written =>
      rw [written, scientific_eq] at member
      rcases List.mem_append.mp member with before | behind
      · exact widen (mem_mantissa (digits_toDigits decimal.digits).digits character before)
      rcases List.mem_cons.mp behind with rfl | behind
      · exact .inr (by decide)
      rcases List.mem_cons.mp behind with rfl | after
      · refine .inr ?_
        unfold exponentSign
        split <;> decide
      · exact .inl (isDigit_powerDigits layout decimal.point character after)

/-- A numeral has no exponent. -/
theorem not_exponent {dividend divisor : Nat} (numeral : Numeral text dividend divisor) :
    text ≠ layout.scientific (Nat.toDigits 10 decimal.digits) decimal.point := by
  intro written
  have member : 'e' ∈ text := by
    rw [written, scientific_eq]
    exact List.mem_append_right _ (List.mem_cons_self ..)
  rcases numeral.characters 'e' member with digit | point
  · cases digit
  · exact absurd point (by decide)

end Writes

/-- A decimal is told by its digits and by where its point stands. -/
theorem decimal_eq {decimal other : Decimal}
    (digits : Nat.toDigits 10 decimal.digits = Nat.toDigits 10 other.digits)
    (point : decimal.point = other.point) : decimal = other := by
  have values := congrArg (Nat.ofDigitChars 10 · 0) digits
  simp only [Nat.ofDigitChars_ten_toDigits] at values
  obtain ⟨number, place⟩ := decimal
  obtain ⟨number', place'⟩ := other
  obtain rfl : number = number' := values
  have places : ((Nat.toDigits 10 number).length : Int) + (place - 1074) =
      (Nat.toDigits 10 number).length + (place' - 1074) := point
  have : place = place' := by omega
  rw [this]

/-- Numerals that are alike are read alike, and texts with exponents that are alike come of one decimal, from which both
numbers are read. -/
theorem eq_of_write_eq {number other : Float} {negative : Bool} {magnitude second : Magnitude}
    (finite : Parts.ofFloat number = .finite negative magnitude)
    (finite' : Parts.ofFloat other = .finite negative second)
    (same : numberLayout.write (.shortest magnitude) = numberLayout.write (.shortest second)) : number = other := by
  have fits := Decimal.fits_shortest magnitude
  have fits' := Decimal.fits_shortest second
  have writes := writes_write (.inr rfl : _ ∨ numberLayout.wholeSuffix = ['.', '0']) (.shortest magnitude)
  have writes' := writes_write (.inr rfl : _ ∨ numberLayout.wholeSuffix = ['.', '0']) (.shortest second)
  rw [same] at writes
  cases writes with
  | numeral denoted =>
      obtain ⟨dividend, divisor, numeral, value⟩ := denoted
      cases writes' with
      | numeral denoted' =>
          obtain ⟨dividend', divisor', numeral', value'⟩ := denoted'
          have read := Binary64.nearest_eq finite numeral.pos (fits.attracts numeral.pos value)
          have read' := Binary64.nearest_eq finite' numeral'.pos (fits'.attracts numeral'.pos value')
          rw [← numeral.readNumber_eq] at read
          rw [← numeral'.readNumber_eq] at read'
          exact read.symm.trans read'
      | exponent written => exact absurd written (Writes.not_exponent numeral)
  | exponent written =>
      cases writes' with
      | numeral denoted =>
          obtain ⟨dividend, divisor, numeral, -⟩ := denoted
          exact absurd written (Writes.not_exponent numeral)
      | exponent written' =>
          obtain ⟨digits, points⟩ :=
            scientific_inj (digits_toDigits _) (digits_toDigits _) (written.symm.trans written')
          have decimals := decimal_eq digits points
          have read := Binary64.nearest_eq finite Decimal.one_pos (fits.attracts Decimal.one_pos rfl)
          have read' := Binary64.nearest_eq finite' Decimal.one_pos (fits'.attracts Decimal.one_pos rfl)
          rw [decimals] at read
          exact read.symm.trans read'

/-! ## Numbers -/

/-- Whether the text of a number has a sign, and what else it is. -/
def signedText : Parts → Bool × List Char
  | .nan => (false, ['n', 'a', 'n'])
  | .infinite negative => (negative, ['i', 'n', 'f'])
  | .finite negative magnitude => (negative, numberLayout.write (.shortest magnitude))

theorem toList_ofNumber (number : Float) :
    (ofNumber number).toList =
      (if (signedText (.ofFloat number)).1 then ['-'] else []) ++ (signedText (.ofFloat number)).2 := by
  unfold ofNumber
  cases Parts.ofFloat number with
  | nan => rfl
  | infinite negative => cases negative <;> rfl
  | finite negative magnitude => cases negative <;> exact String.toList_ofList

theorem writes_numberLayout (magnitude : Magnitude) :
    Writes numberLayout (.shortest magnitude) (numberLayout.write (.shortest magnitude)) :=
  writes_write (.inr rfl) _

theorem opens_signedText (parts : Parts) :
    ∃ first more, (signedText parts).2 = first :: more ∧ (first = 'n' ∨ first = 'i' ∨ isDigit first = true) := by
  cases parts with
  | nan => exact ⟨'n', _, rfl, .inl rfl⟩
  | infinite negative => exact ⟨'i', _, rfl, .inr (.inl rfl)⟩
  | finite negative magnitude =>
      obtain ⟨first, more, text, digit⟩ := (writes_numberLayout magnitude).opens
      exact ⟨first, more, text, .inr (.inr digit)⟩

/-- What is not a sign in the text of a number does not begin with a sign. -/
theorem signedText_ne (parts : Parts) (text : List Char) : (signedText parts).2 ≠ '-' :: text := by
  obtain ⟨first, more, written, begins⟩ := opens_signedText parts
  intro same
  obtain rfl : first = '-' := (List.cons.inj (written.symm.trans same)).1
  rcases begins with sign | sign | sign
  · exact absurd sign (by decide)
  · exact absurd sign (by decide)
  · exact absurd sign (by decide)

theorem signedText_eq {number other : Float} (same : ofNumber number = ofNumber other) :
    signedText (.ofFloat number) = signedText (.ofFloat other) := by
  have texts := congrArg String.toList same
  rw [toList_ofNumber, toList_ofNumber] at texts
  have plain := signedText_ne (.ofFloat number)
  have plain' := signedText_ne (.ofFloat other)
  generalize signedText (.ofFloat number) = signed at *
  generalize signedText (.ofFloat other) = signed' at *
  obtain ⟨negative, text⟩ := signed
  obtain ⟨negative', text'⟩ := signed'
  cases negative <;> cases negative'
  · exact congrArg (Prod.mk false) texts
  · exact absurd texts (plain _)
  · exact absurd texts.symm (plain' _)
  · exact congrArg (Prod.mk true) (List.cons.inj texts).2

/-- Digits are written for a finite number, and no word. -/
theorem write_ne (magnitude : Magnitude) :
    numberLayout.write (.shortest magnitude) ≠ ['n', 'a', 'n'] ∧
      numberLayout.write (.shortest magnitude) ≠ ['i', 'n', 'f'] := by
  obtain ⟨first, more, text, digit⟩ := (writes_numberLayout magnitude).opens
  rw [text]
  refine ⟨fun same => ?_, fun same => ?_⟩
  · exact ne_of_isDigit digit (rfl : isDigit 'n' = false) (List.cons.inj same).1
  · exact ne_of_isDigit digit (rfl : isDigit 'i' = false) (List.cons.inj same).1

/-- No two numbers are written alike. -/
theorem ofNumber_injective : Function.Injective ofNumber := by
  intro number other same
  have signed := signedText_eq same
  cases parts : Parts.ofFloat number with
  | nan =>
      cases parts' : Parts.ofFloat other with
      | nan => exact Binary64.eq_of_nan parts parts'
      | infinite _ =>
          rw [parts, parts'] at signed
          exact absurd (congrArg Prod.snd signed) (by decide : ['n', 'a', 'n'] ≠ ['i', 'n', 'f'])
      | finite _ magnitude =>
          rw [parts, parts'] at signed
          exact absurd (congrArg Prod.snd signed).symm (write_ne magnitude).1
  | infinite negative =>
      cases parts' : Parts.ofFloat other with
      | nan =>
          rw [parts, parts'] at signed
          exact absurd (congrArg Prod.snd signed) (by decide : ['i', 'n', 'f'] ≠ ['n', 'a', 'n'])
      | infinite negative' =>
          rw [parts, parts'] at signed
          obtain rfl : negative = negative' := congrArg Prod.fst signed
          exact Binary64.eq_of_infinite parts parts'
      | finite _ magnitude =>
          rw [parts, parts'] at signed
          exact absurd (congrArg Prod.snd signed).symm (write_ne magnitude).2
  | finite negative magnitude =>
      cases parts' : Parts.ofFloat other with
      | nan =>
          rw [parts, parts'] at signed
          exact absurd (congrArg Prod.snd signed) (write_ne magnitude).1
      | infinite _ =>
          rw [parts, parts'] at signed
          exact absurd (congrArg Prod.snd signed) (write_ne magnitude).2
      | finite negative' second =>
          rw [parts, parts'] at signed
          obtain rfl : negative = negative' := congrArg Prod.fst signed
          exact eq_of_write_eq parts parts' (congrArg Prod.snd signed)

/-! ## Listings -/

theorem isNumeric_of_mem_signedText (parts : Parts) : ∀ character ∈ (signedText parts).2, IsNumeric character := by
  intro character member
  cases parts with
  | nan => exact .inr ((by decide : ['n', 'a', 'n'] ⊆ numberSigns) member)
  | infinite _ => exact .inr ((by decide : ['i', 'n', 'f'] ⊆ numberSigns) member)
  | finite _ magnitude => exact (writes_numberLayout magnitude).isNumeric character member

theorem isNumeric_of_mem_ofNumber (number : Float) :
    ∀ character ∈ (ofNumber number).toList, IsNumeric character := by
  intro character member
  rw [toList_ofNumber] at member
  rcases List.mem_append.mp member with sign | member
  · split at sign
    · exact .inr (List.mem_singleton.mp sign ▸ by decide)
    · cases sign
  · exact isNumeric_of_mem_signedText _ character member

/-- A number begins with a character that no other constant begins with. -/
theorem opens_ofNumber (number : Float) : ∃ first, Opens first (ofNumber number) ∧ IsNumeric first := by
  have numeric := isNumeric_of_mem_ofNumber number
  cases text : (ofNumber number).toList with
  | nil =>
      obtain ⟨first, more, written, -⟩ := opens_signedText (.ofFloat number)
      rw [toList_ofNumber, written] at text
      exact absurd text (List.append_ne_nil_of_right_ne_nil _ (List.cons_ne_nil _ _))
  | cons first more => exact ⟨first, ⟨more, text⟩, numeric first (text ▸ List.mem_cons_self ..)⟩

/-- A number is shown by its text. -/
theorem shows_number (number other : Float) : Shows (number = other) (ofNumber number) (ofNumber other) := by
  have plain (number : Float) : ∀ character ∈ (ofNumber number).toList, (!isCloser character) = true :=
    fun character member => not_isCloser_of_isNumeric (isNumeric_of_mem_ofNumber number character member)
  exact (shows_bare (plain number) (plain other)).mono fun same => ofNumber_injective same

end LoxLang
