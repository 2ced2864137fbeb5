import Mathlib.Data.List.Forall2
import LoxLang.Proofs.Token.Pieces

/-!
What follows a piece. Where a piece ends depends on a few properties of the characters behind it, so a text is cut into
the same pieces when something else that has these properties is behind them, or when one word stands for another.
-/

namespace LoxLang.Piece

variable {first : Char} {rest body behind other text : List Char} {form : Form}

/-! ## Lengths -/

/-- How the form and the length of a piece follow from the characters behind its first one. -/
inductive Look (first : Char) : (List Char → Form × Nat) → Prop
  | alone {form : Form} : form ≠ .word → Look first fun _ => (form, 0)
  | equal (longer shorter : Token.Kind) : Look first fun rest => withEqual rest longer shorter
  | slash : Look first slashForm
  | string : Look first stringForm
  | number : Look first fun rest => (.number, numberLength rest)
  | word : isLetter first = true →
      Look first fun rest => (.word, (rest.takeWhile isWordCharacter).length)

theorem exists_look (first : Char) :
    ∃ look, Look first look ∧ ∀ rest, begin first rest = look rest := by
  by_cases mark : first ∈ marks
  · simp only [marks, List.mem_cons, List.not_mem_nil, or_false] at mark
    rcases mark with rfl | rfl | rfl | rfl | rfl | rfl | rfl | rfl | rfl | rfl | rfl | rfl | rfl |
      rfl | rfl | rfl | rfl | rfl | rfl | rfl
    all_goals first
      | exact ⟨_, .alone (by decide), fun _ => rfl⟩
      | exact ⟨_, .equal _ _, fun _ => rfl⟩
      | exact ⟨_, .slash, fun _ => rfl⟩
      | exact ⟨_, .string, fun _ => rfl⟩
  · by_cases digit : isDigit first = true
    · exact ⟨_, .number, begin_digit digit⟩
    · by_cases letter : isLetter first = true
      · exact ⟨_, .word letter, begin_letter letter⟩
      · have stray : Form.stray ≠ .word := nofun
        exact ⟨_, .alone stray, fun rest => by rw [begin_other mark, if_neg digit, if_neg letter]⟩

theorem length_takeWhile_le (p : Char → Bool) (text : List Char) :
    (text.takeWhile p).length ≤ text.length :=
  (List.takeWhile_prefix p).length_le

theorem numberLength_le (rest : List Char) : numberLength rest ≤ rest.length := by
  obtain ⟨whole, behind, rfl, digits, ends⟩ := exists_run isDigit rest
  by_cases pointed : Pointed behind
  · obtain ⟨digit, fraction, rfl, next⟩ := pointed
    have starts : (digit :: fraction).head?.any isDigit = true := next
    rw [numberLength_pointed digits starts]
    have := length_takeWhile_le isDigit (digit :: fraction)
    simp only [List.length_append, List.length_cons] at *
    omega
  · rw [numberLength_whole digits ends pointed, List.length_append]
    exact Nat.le_add_right _ _

theorem begin_le (first : Char) (rest : List Char) : (begin first rest).2 ≤ rest.length := by
  obtain ⟨look, shape, same⟩ := exists_look first
  rw [same]
  cases shape with
  | alone _ => exact Nat.zero_le _
  | equal longer shorter =>
      change (withEqual rest longer shorter).2 ≤ _
      unfold withEqual
      split
      · next equal =>
        obtain ⟨_, rfl⟩ := List.head?_eq_some_iff.mp equal
        exact Nat.succ_le_succ (Nat.zero_le _)
      · exact Nat.zero_le _
  | slash =>
      unfold slashForm
      split
      · next rest =>
        rw [List.length_cons, Nat.add_comm]
        exact Nat.succ_le_succ (length_takeWhile_le _ rest)
      · exact Nat.zero_le _
  | string =>
      simp only [stringForm]
      split
      · assumption
      · exact Nat.le_refl _
  | number => exact numberLength_le rest
  | word _ => exact length_takeWhile_le _ _

/-! ## Cuts -/

/-- Each piece of the text ends where the next one begins. -/
inductive Cuts : List Piece → List Char → Prop
  | nil : Cuts [] []
  | cons {form : Form} {first : Char} {body text : List Char} {pieces : List Piece} :
      begin first (body ++ text) = (form, body.length) → Cuts pieces text →
      Cuts (⟨form, first :: body⟩ :: pieces) (first :: (body ++ text))

theorem cuts_cut (text : List Char) : Cuts (cut text) text := by
  induction h : text.length using Nat.strongRecOn generalizing text with
  | ind length ih =>
      cases text with
      | nil =>
          rw [cut_nil]
          exact .nil
      | cons first rest =>
          have bound := begin_le first rest
          have later := ih (rest.drop (begin first rest).2).length
            (by rw [← h, List.length_drop, List.length_cons]; omega) _ rfl
          have parts := List.take_append_drop (begin first rest).2 rest
          have here : begin first (rest.take (begin first rest).2 ++
              rest.drop (begin first rest).2) =
              ((begin first rest).1, (rest.take (begin first rest).2).length) := by
            rw [parts, List.length_take, Nat.min_eq_left bound]
          have all := Cuts.cons here later
          rwa [parts, ← cut_cons] at all

theorem Cuts.cut_eq {pieces : List Piece} (h : Cuts pieces text) : cut text = pieces := by
  induction h with
  | nil => exact cut_nil
  | cons begins _ ih => rw [cut_cons, begins, List.take_left, List.drop_left, ih]

/-! ## What is looked at -/

/-- All that is asked about the character behind a piece. -/
def questions : List (Char → Bool) :=
  [(· = '='), (· = '/'), (· ≠ '\n'), isDigit, isWordCharacter]

/-- Where a piece ends before some text it ends before the other one too. -/
structure Ends (behind other : List Char) : Prop where
  head : ∀ question ∈ questions, behind.head?.any question = false →
    other.head?.any question = false
  point : Pointed other → Pointed behind

theorem length_takeWhile_append (p : Char → Bool) (body behind : List Char) :
    ((body ++ behind).takeWhile p).length = body.length ↔
      (∀ character ∈ body, p character = true) ∧ behind.head?.any p = false := by
  induction body with
  | nil =>
      cases behind with
      | nil => simp
      | cons next rest => cases h : p next <;> simp [h]
  | cons character body ih => cases h : p character <;> simp [h, ih]

namespace Ends

theorem takeWhile (ends : Ends behind other) {question : Char → Bool}
    (asked : question ∈ questions)
    (h : ((body ++ behind).takeWhile question).length = body.length) :
    ((body ++ other).takeWhile question).length = body.length := by
  rw [length_takeWhile_append] at h ⊢
  exact ⟨h.1, ends.head question asked h.2⟩

theorem head_ne (ends : Ends behind other) {symbol : Char}
    (asked : (fun next => decide (next = symbol)) ∈ questions)
    (alone : behind.head? ≠ some symbol) : other.head? ≠ some symbol := by
  have before : behind.head?.any (· = symbol) = false := by
    cases head : behind.head? with
    | none => rfl
    | some next => simpa [head] using alone
  intro head
  have after := ends.head _ asked before
  simp [head] at after

/-- A symbol does not become longer. -/
theorem withEqual (ends : Ends behind other) {longer shorter : Token.Kind}
    (h : Piece.withEqual (body ++ behind) longer shorter = (form, body.length)) :
    Piece.withEqual (body ++ other) longer shorter = (form, body.length) := by
  cases body with
  | cons character body => exact h
  | nil =>
      have alone : behind.head? ≠ some '=' := by
        intro head
        simp [Piece.withEqual, head] at h
      have still := ends.head_ne (by simp [questions]) alone
      simp only [Piece.withEqual, List.nil_append, if_neg alone] at h
      simpa only [Piece.withEqual, List.nil_append, if_neg still] using h

theorem slashForm (ends : Ends behind other)
    (h : Piece.slashForm (body ++ behind) = (form, body.length)) :
    Piece.slashForm (body ++ other) = (form, body.length) := by
  cases body with
  | nil =>
      have alone : behind.head? ≠ some '/' := by
        intro head
        obtain ⟨rest, rfl⟩ := List.head?_eq_some_iff.mp head
        simp [Piece.slashForm] at h
      rw [List.nil_append, slashForm_alone alone] at h
      rw [List.nil_append, slashForm_alone (ends.head_ne (by simp [questions]) alone), h]
  | cons character body =>
      by_cases slash : character = '/'
      · subst slash
        simp only [List.cons_append, Piece.slashForm, Prod.mk.injEq, List.length_cons] at h ⊢
        obtain ⟨rfl, length⟩ := h
        have same : ((body ++ other).takeWhile (· ≠ '\n')).length = body.length :=
          ends.takeWhile (by simp [questions]) (by omega)
        exact ⟨rfl, by omega⟩
      · have alone (text : List Char) : (character :: text).head? ≠ some '/' := by simpa using slash
        rw [List.cons_append, slashForm_alone (alone _)] at h
        cases h

/-- What is behind a closed string does not matter. -/
theorem stringForm (h : Piece.stringForm (body ++ behind) = (form, body.length))
    (closed : form ≠ .unclosed) : Piece.stringForm (body ++ other) = (form, body.length) := by
  simp only [Piece.stringForm] at h ⊢
  split at h
  · obtain ⟨rfl, length⟩ := Prod.mk.inj h
    have within : (body.takeWhile (· ≠ '\x22')).length ≠ body.length := by
      intro all
      rw [List.takeWhile_append, if_pos all, List.length_append] at length
      omega
    rw [List.takeWhile_append, if_neg within] at length
    rw [List.takeWhile_append, if_neg within, if_pos, length]
    rw [List.length_append]
    omega
  · exact absurd (Prod.mk.inj h).1.symm closed

theorem numberLength (ends : Ends behind other)
    (h : Piece.numberLength (body ++ behind) = body.length) :
    Piece.numberLength (body ++ other) = body.length := by
  obtain ⟨whole, tail, parts, digits, stops⟩ := exists_run isDigit (body ++ behind)
  by_cases pointed : Pointed tail
  · obtain ⟨digit, fraction, rfl, next⟩ := pointed
    obtain ⟨places, later, same, inside, last⟩ := exists_run isDigit (digit :: fraction)
    cases places with
    | nil =>
        rw [List.nil_append] at same
        subst same
        rw [List.head?_cons, Option.any_some, next] at last
        cases last
    | cons place places =>
        have first (rest : List Char) : (place :: places ++ rest).head?.any isDigit = true :=
          inside place List.mem_cons_self
        rw [parts, same, numberLength_pointed digits (first later),
          takeWhile_eq_of_ends inside last] at h
        have whole_eq : body ++ behind = (whole ++ '.' :: place :: places) ++ later := by
          rw [parts, same, List.append_assoc]
          rfl
        have length : body.length = (whole ++ '.' :: place :: places).length := by
          simp only [← h, List.length_append, List.length_cons]
          omega
        obtain ⟨rfl, rfl⟩ := List.append_inj whole_eq length
        have still := ends.head _ (by simp [questions]) last
        rw [List.append_assoc, List.cons_append, numberLength_pointed digits (first other),
          takeWhile_eq_of_ends inside still]
        exact h
  · rw [parts, numberLength_whole digits stops pointed] at h
    obtain ⟨rfl, rfl⟩ := List.append_inj parts h.symm
    exact numberLength_whole digits (ends.head _ (by simp [questions]) stops)
      fun point => pointed (ends.point point)

theorem begin (ends : Ends behind other)
    (h : Piece.begin first (body ++ behind) = (form, body.length)) (closed : form ≠ .unclosed) :
    Piece.begin first (body ++ other) = (form, body.length) := by
  obtain ⟨look, shape, same⟩ := exists_look first
  rw [same] at h ⊢
  cases shape with
  | alone _ => exact h
  | equal longer shorter => exact ends.withEqual h
  | slash => exact ends.slashForm h
  | string => exact stringForm h closed
  | number =>
      obtain ⟨rfl, length⟩ := Prod.mk.inj h
      exact congrArg _ (ends.numberLength length)
  | word _ =>
      obtain ⟨rfl, length⟩ := Prod.mk.inj h
      exact congrArg _ (ends.takeWhile (by simp [questions]) length)

end Ends

/-! ## Other texts -/

/-- A word as it is cut from a text. -/
def IsWord (text : List Char) : Prop :=
  ∃ first rest, text = first :: rest ∧ isLetter first = true ∧
    ∀ character ∈ rest, isWordCharacter character = true

/-- The same piece, or another word in its place. -/
inductive Restates : Piece → Piece → Prop
  | same {piece : Piece} : Restates piece piece
  | word {text other : List Char} : IsWord other → Restates ⟨.word, text⟩ ⟨.word, other⟩

theorem isLetter_of_word {length : Nat} (h : begin first rest = (.word, length)) :
    isLetter first = true ∧ length = (rest.takeWhile isWordCharacter).length := by
  obtain ⟨look, shape, same⟩ := exists_look first
  rw [same] at h
  cases shape with
  | alone other => exact absurd (Prod.mk.inj h).1 other
  | equal longer shorter =>
      change withEqual rest longer shorter = _ at h
      unfold withEqual at h
      split at h <;> cases h
  | slash =>
      unfold slashForm at h
      split at h <;> cases h
  | string =>
      simp only [stringForm] at h
      split at h <;> cases h
  | number => cases h
  | word letter => exact ⟨letter, (Prod.mk.inj h).2.symm⟩

namespace Ends

/-- A letter in place of a letter answers no question otherwise. -/
theorem of_letter {letter : Char} (isLetter : LoxLang.isLetter first = true)
    (isLetter' : LoxLang.isLetter letter = true) : Ends (first :: rest) (letter :: other) where
  head question asked no := by
    have ne (symbol : Char) (plain : LoxLang.isLetter symbol = false) :
        decide (letter = symbol) = false :=
      decide_eq_false fun same => by rw [same, plain] at isLetter'; cases isLetter'
    change question first = false at no
    change question letter = false
    simp only [questions, List.mem_cons, List.not_mem_nil, or_false] at asked
    rcases asked with rfl | rfl | rfl | rfl | rfl
    · exact ne '=' (by decide)
    · exact ne '/' (by decide)
    · have newline : first = '\n' := of_not_not (of_decide_eq_false no)
      rw [newline] at isLetter
      cases isLetter
    · exact eq_false_of_ne_true (not_isDigit_of_isLetter isLetter')
    · rw [isWordCharacter, isLetter] at no
      cases no
  point pointed := by
    obtain ⟨_, _, same, -⟩ := pointed
    obtain rfl : letter = '.' := (List.cons.inj same).1
    cases isLetter'

/-- The same characters, before texts that also answer the same. -/
theorem append (ends : Ends behind other) (first : Char) (body : List Char) :
    Ends (first :: (body ++ behind)) (first :: (body ++ other)) where
  head _ _ no := no
  point := by
    rintro ⟨digit, rest, same, isDigit⟩
    obtain ⟨rfl, tail⟩ := List.cons.inj same
    cases body with
    | cons next body =>
        obtain ⟨rfl, -⟩ := List.cons.inj tail
        exact ⟨next, body ++ behind, rfl, isDigit⟩
    | nil =>
        obtain rfl : other = digit :: rest := tail
        have asked : LoxLang.isDigit ∈ questions := by simp [questions]
        have starts : behind.head?.any LoxLang.isDigit = true := by
          refine eq_true_of_ne_false fun no => ?_
          have still := ends.head _ asked no
          exact absurd (isDigit.symm.trans still) (by decide)
        cases behind with
        | nil => cases starts
        | cons next behind => exact ⟨next, behind, rfl, starts⟩

theorem restate {pieces others : List Piece} {tail : List Char} (cuts : Cuts pieces text)
    (same : List.Forall₂ Restates pieces others) (ends : Ends [] tail) :
    Ends text (others.flatMap Piece.text ++ tail) := by
  induction cuts generalizing others with
  | nil =>
      cases same
      exact ends
  | cons begins _ ih =>
      cases same with
      | cons here later =>
          rw [List.flatMap_cons, List.append_assoc]
          cases here with
          | same => exact (ih later).append _ _
          | word isWord =>
              obtain ⟨letter, rest, rfl, isLetter', -⟩ := isWord
              exact .of_letter (isLetter_of_word begins).1 isLetter'

end Ends

/-- A text with other words in it, and with more behind it, is cut into the same pieces but for these words. -/
theorem Cuts.restate {pieces others last : List Piece} {tail : List Char} (cuts : Cuts pieces text)
    (closed : ∀ piece ∈ pieces, piece.form ≠ .unclosed)
    (same : List.Forall₂ Restates pieces others) (ends : Ends [] tail) (behind : Cuts last tail) :
    Cuts (others ++ last) (others.flatMap Piece.text ++ tail) := by
  induction cuts generalizing others with
  | nil =>
      cases same
      exact behind
  | @cons form first body text pieces begins cuts ih =>
      cases same with
      | @cons _ other _ others here later =>
          have still := Ends.restate cuts later ends
          have goes := ih (fun piece member => closed piece (List.mem_cons_of_mem _ member)) later
          rw [List.flatMap_cons, List.append_assoc]
          cases here with
          | same => exact .cons (still.begin begins (closed _ List.mem_cons_self)) goes
          | word isWord =>
              obtain ⟨letter, rest, rfl, isLetter, inside⟩ := isWord
              obtain ⟨-, length⟩ := isLetter_of_word begins
              have stops := ((length_takeWhile_append _ _ _).mp length.symm).2
              refine .cons ?_ goes
              rw [begin_letter isLetter,
                takeWhile_eq_of_ends inside (still.head _ (by simp [questions]) stops)]

end LoxLang.Piece
