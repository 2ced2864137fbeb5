import LoxLang.Text.Quoted

/-!
Quoted texts that are told apart. What is written for a character is read off before whatever follows, since the letter
behind a backslash tells how much belongs to it, and never begins with the mark in use, so that a quoted text ends where
it is seen to end.
-/

namespace LoxLang.Text.Quoted

variable {sign : Char} {text other rest behind : List Char}

/-! ## Codes -/

theorem length_digits (count code : Nat) : (digits count code).length = count := by
  induction count generalizing code with
  | zero => rfl
  | succ count ih => rw [digits, List.length_append, ih, List.length_singleton]

theorem digitChar_inj :
    ∀ digit < 16, ∀ other < 16, Nat.digitChar digit = Nat.digitChar other → digit = other := by
  decide

/-- A code is told by its digits if there are enough of them. -/
theorem digits_inj {count code second : Nat} (fits : code < Nat.pow 16 count)
    (fits' : second < Nat.pow 16 count) (same : digits count code = digits count second) : code = second := by
  induction count generalizing code second with
  | zero => exact (Nat.lt_one_iff.mp fits).trans (Nat.lt_one_iff.mp fits').symm
  | succ count ih =>
      change code < Nat.pow 16 count * 16 at fits
      change second < Nat.pow 16 count * 16 at fits'
      obtain ⟨higher, lowest⟩ := List.append_inj' same rfl
      have high : code / 16 = second / 16 := ih (by omega) (by omega) higher
      have low : code % 16 = second % 16 :=
        digitChar_inj _ (Nat.mod_lt _ (by decide)) _ (Nat.mod_lt _ (by decide)) (List.cons.inj lowest).1
      omega

theorem coded_eq (code : Nat) : coded code = '\\' :: (codeForm code).1 :: digits (codeForm code).2 code :=
  rfl

theorem codeForm_cases (code : Nat) :
    codeForm code = ('x', 2) ∨ codeForm code = ('u', 4) ∨ codeForm code = ('U', 8) := by
  unfold codeForm
  split
  · exact .inl rfl
  split
  · exact .inr (.inl rfl)
  · exact .inr (.inr rfl)

/-- A letter that stands before the digits of a code. -/
def IsCodeLetter (letter : Char) : Prop :=
  letter = 'x' ∨ letter = 'u' ∨ letter = 'U'

instance : DecidablePred IsCodeLetter :=
  fun _ => inferInstanceAs (Decidable (_ ∨ _ ∨ _))

theorem isCodeLetter_codeForm (code : Nat) : IsCodeLetter (codeForm code).1 :=
  (codeForm_cases code).imp (congrArg Prod.fst) (.imp (congrArg Prod.fst) (congrArg Prod.fst))

/-- The letter tells how many digits there are. -/
theorem codeForm_congr {code second : Nat} (same : (codeForm code).1 = (codeForm second).1) :
    (codeForm code).2 = (codeForm second).2 := by
  rcases codeForm_cases code with form | form | form <;>
    rcases codeForm_cases second with form' | form' | form' <;>
      rw [form, form'] at same ⊢ <;> cases same

theorem lt_codeForm (character : Char) : character.toNat < Nat.pow 16 (codeForm character.toNat).2 := by
  have valid := character.valid
  change character.toNat < _ ∨ _ ∧ character.toNat < _ at valid
  unfold codeForm
  split
  · next small => exact small
  split
  · next small => exact small
  · change character.toNat < 4294967296
    omega

/-! ## Characters -/

/-- A mark is no letter and no backslash. -/
def IsMark (sign : Char) : Prop :=
  sign = '\x27' ∨ sign = '\x22'

theorem isMark_mark (text : List Char) : IsMark (mark text) := by
  unfold mark
  split
  · exact .inr rfl
  · exact .inl rfl

/-- The character that a backslash and this one stand for. -/
def meaning (letter : Char) : Char :=
  if letter = 'n' then '\n' else if letter = 't' then '\t' else if letter = 'r' then '\r' else letter

/-- A character is written as it is, or with a backslash before a letter that means it, or by its code. -/
inductive Written (sign character : Char) : List Char → Prop
  | plain : character ≠ '\\' → character ≠ sign → Written sign character [character]
  | escaped {letter : Char} :
      meaning letter = character → ¬ IsCodeLetter letter → Written sign character ['\\', letter]
  | coded : Written sign character (coded character.toNat)

theorem written_escape (isMark : IsMark sign) (character : Char) :
    Written sign character (escape sign character) := by
  have meaning_sign : meaning sign = sign := by rcases isMark with rfl | rfl <;> rfl
  have noCode : ¬ IsCodeLetter sign := by rcases isMark with rfl | rfl <;> decide
  unfold escape
  split
  · next backslash => exact .escaped backslash.symm (by decide)
  next unlikeBackslash =>
  split
  · next same => exact .escaped (same ▸ meaning_sign) (same ▸ noCode)
  next unlikeSign =>
  split
  · next newline => exact .escaped newline.symm (by decide)
  split
  · next tab => exact .escaped tab.symm (by decide)
  split
  · next back => exact .escaped back.symm (by decide)
  split
  · exact .plain unlikeBackslash unlikeSign
  · exact .coded

theorem coded_append_inj {character second : Char}
    (same : coded character.toNat ++ rest = coded second.toNat ++ behind) : character = second ∧ rest = behind := by
  rw [coded_eq, coded_eq] at same
  obtain ⟨letters, bodies⟩ := List.cons.inj (List.cons.inj same).2
  have counts := codeForm_congr letters
  rw [← counts] at bodies
  obtain ⟨codes, rests⟩ := List.append_inj bodies (by rw [length_digits, length_digits])
  have fits : second.toNat < Nat.pow 16 (codeForm character.toNat).2 := counts ▸ lt_codeForm second
  exact ⟨Char.toNat_inj.mp (digits_inj (lt_codeForm character) fits codes), rests⟩

/-- A character is told by what is written for it, whatever follows. -/
theorem Written.append_inj {character second : Char} (first : Written sign character text)
    (another : Written sign second other) (same : text ++ rest = other ++ behind) :
    character = second ∧ rest = behind := by
  cases first with
  | plain unlike _ =>
      cases another with
      | plain => exact List.cons.inj same
      | escaped | coded => exact absurd (List.cons.inj same).1 unlike
  | escaped means noCode =>
      cases another with
      | plain unlike _ => exact absurd (List.cons.inj same).1.symm unlike
      | escaped means' _ =>
          obtain ⟨letters, rests⟩ := List.cons.inj (List.cons.inj same).2
          exact ⟨means.symm.trans ((congrArg meaning letters).trans means'), rests⟩
      | coded =>
          have letters := (List.cons.inj (List.cons.inj same).2).1
          exact absurd (letters ▸ isCodeLetter_codeForm _) noCode
  | coded =>
      cases another with
      | plain unlike _ => exact absurd (List.cons.inj same).1.symm unlike
      | escaped _ noCode =>
          have letters := (List.cons.inj (List.cons.inj same).2).1
          exact absurd (letters ▸ isCodeLetter_codeForm _) noCode
      | coded => exact coded_append_inj same

/-- Nothing that is written for a character begins with the mark. -/
theorem Written.ne_cons (isMark : IsMark sign) {character : Char} (h : Written sign character text) :
    text ++ rest ≠ sign :: behind := by
  intro same
  cases h with
  | plain _ unlike => exact unlike (List.cons.inj same).1
  | escaped | coded =>
      have backslash : '\\' = sign := (List.cons.inj same).1
      rcases isMark with rfl | rfl
      · exact absurd backslash (by decide)
      · exact absurd backslash (by decide)

theorem flatMap_escape_inj (isMark : IsMark sign)
    (same : text.flatMap (escape sign) ++ sign :: rest = other.flatMap (escape sign) ++ sign :: behind) :
    text = other ∧ rest = behind := by
  induction text generalizing other with
  | nil =>
      cases other with
      | nil => exact ⟨rfl, (List.cons.inj same).2⟩
      | cons second others =>
          rw [List.flatMap_cons, List.append_assoc] at same
          exact absurd same.symm ((written_escape isMark second).ne_cons isMark)
  | cons first more ih =>
      rw [List.flatMap_cons, List.append_assoc] at same
      cases other with
      | nil => exact absurd same ((written_escape isMark first).ne_cons isMark)
      | cons second others =>
          rw [List.flatMap_cons, List.append_assoc] at same
          obtain ⟨rfl, rests⟩ := (written_escape isMark first).append_inj (written_escape isMark second) same
          obtain ⟨rfl, behinds⟩ := ih rests
          exact ⟨rfl, behinds⟩

/-- A text is told by its quotation, whatever follows. -/
theorem encode_append_inj (same : encode text ++ rest = encode other ++ behind) : text = other ∧ rest = behind := by
  rw [encode, encode, List.cons_append, List.cons_append] at same
  obtain ⟨marks, bodies⟩ := List.cons.inj same
  rw [marks, List.append_assoc, List.append_assoc] at bodies
  exact flatMap_escape_inj (isMark_mark other) bodies

end LoxLang.Text.Quoted
