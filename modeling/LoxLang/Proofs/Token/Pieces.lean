import LoxLang.Token.Piece

/-!
How a piece begins. Its first character tells how the form and the length of a piece follow from the characters
behind it; runs of characters and numbers are given in parts.
-/

namespace LoxLang.Piece

variable {first : Char} {body behind rest whole fraction : List Char} {p : Char → Bool}

/-! ## Runs of characters -/

theorem takeWhile_eq_of_ends (inside : ∀ character ∈ body, p character = true)
    (ends : behind.head?.any p = false) : (body ++ behind).takeWhile p = body := by
  rw [List.takeWhile_append_of_pos inside]
  cases behind with
  | nil => simp
  | cons next rest =>
      have stops : p next = false := by simpa using ends
      simp [stops]

/-- A run that begins a text is not longer than what is taken of the text. -/
theorem le_length_takeWhile (inside : ∀ character ∈ body, p character = true)
    (begins : body <+: rest) : body.length ≤ (rest.takeWhile p).length := by
  obtain ⟨behind, rfl⟩ := begins
  rw [List.takeWhile_append_of_pos inside, List.length_append]
  exact Nat.le_add_right _ _

/-- Every text is a run and what it ends at. -/
theorem exists_run (p : Char → Bool) (text : List Char) :
    ∃ body behind, text = body ++ behind ∧ (∀ character ∈ body, p character = true) ∧
      behind.head?.any p = false := by
  refine ⟨text.takeWhile p, text.dropWhile p, List.takeWhile_append_dropWhile.symm,
    List.all_eq_true.mp List.all_takeWhile, ?_⟩
  have stops := List.head?_dropWhile_not p text
  cases h : text.dropWhile p with
  | nil => rfl
  | cons next rest => simpa [h] using stops

/-! ## Numbers -/

/-- A point with a digit behind it. -/
def Pointed (text : List Char) : Prop :=
  ∃ digit rest, text = '.' :: digit :: rest ∧ isDigit digit = true

theorem numberLength_pointed (digits : ∀ character ∈ whole, isDigit character = true)
    (next : fraction.head?.any isDigit = true) :
    numberLength (whole ++ '.' :: fraction) =
      whole.length + 1 + (fraction.takeWhile isDigit).length := by
  have ends : ('.' :: fraction).head?.any isDigit = false := rfl
  cases fraction with
  | nil => cases next
  | cons digit rest =>
      have first : isDigit digit = true := next
      simp only [numberLength, takeWhile_eq_of_ends digits ends, List.drop_left,
        List.takeWhile_cons_of_pos first, List.length_cons]

theorem numberLength_whole (digits : ∀ character ∈ whole, isDigit character = true)
    (ends : behind.head?.any isDigit = false) (plain : ¬ Pointed behind) :
    numberLength (whole ++ behind) = whole.length := by
  simp only [numberLength, takeWhile_eq_of_ends digits ends, List.drop_left]
  split
  · next fraction =>
    cases fraction with
    | nil => rfl
    | cons next rest =>
        have stops : ¬ isDigit next = true := fun digit => plain ⟨next, rest, rfl, digit⟩
        rw [List.takeWhile_cons_of_neg stops]
        rfl
  · rfl

theorem le_numberLength (digits : ∀ character ∈ whole, isDigit character = true)
    (begins : whole <+: rest) : whole.length ≤ numberLength rest := by
  have taken := le_length_takeWhile digits begins
  simp only [numberLength]
  split
  · split <;> omega
  · exact taken

/-! ## First characters -/

/-- The characters that are no digits or letters but begin a piece. -/
def marks : List Char :=
  ['(', ')', '\x7b', '\x7d', ',', '.', '-', '+', ';', '*', '!', '=', '<', '>', '/', ' ', '\r', '\t',
    '\n', '\x22']

theorem begin_other (plain : first ∉ marks) (rest : List Char) :
    begin first rest =
      if isDigit first then (.number, numberLength rest)
      else if isLetter first then (.word, (rest.takeWhile isWordCharacter).length)
      else (.stray, 0) := by
  unfold begin
  split
  case h_21 => rfl
  all_goals exact absurd (by decide) plain

theorem plain_of_mem_marks :
    ∀ mark ∈ marks, isDigit mark = false ∧ isLetter mark = false := by
  have all : (marks.all fun mark => !isDigit mark && !isLetter mark) = true := by decide
  simpa using all

theorem begin_digit (digit : isDigit first = true) (rest : List Char) :
    begin first rest = (.number, numberLength rest) := by
  have plain : first ∉ marks := by
    intro mark
    rw [(plain_of_mem_marks first mark).1] at digit
    cases digit
  rw [begin_other plain, if_pos digit]

theorem not_isDigit_of_isLetter (letter : isLetter first = true) : ¬ isDigit first = true := by
  intro digit
  simp only [isLetter, isDigit, Bool.or_eq_true, Bool.and_eq_true, decide_eq_true_eq,
    Char.le_def, UInt32.le_iff_toNat_le] at letter digit
  have bound : first.val.toNat ≤ 57 := digit.2
  rcases letter with (⟨low, -⟩ | ⟨low, -⟩) | same
  · have : 97 ≤ first.val.toNat := low
    omega
  · have : 65 ≤ first.val.toNat := low
    omega
  · subst same
    exact absurd bound (by decide)

theorem begin_letter (letter : isLetter first = true) (rest : List Char) :
    begin first rest = (.word, (rest.takeWhile isWordCharacter).length) := by
  have plain : first ∉ marks := by
    intro mark
    rw [(plain_of_mem_marks first mark).2] at letter
    cases letter
  rw [begin_other plain, if_neg (not_isDigit_of_isLetter letter), if_pos letter]

theorem slashForm_alone (alone : rest.head? ≠ some '/') : slashForm rest = (.symbol .slash, 0) := by
  unfold slashForm
  split
  · exact absurd rfl alone
  · rfl

end LoxLang.Piece
