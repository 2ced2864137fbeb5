import LoxLang.Token.Basic

/-!
Pieces of a text. A text is cut from the left: each piece is the longest one that can begin with its
first character, and the next piece begins where it ends. A piece is described by its form and by the
number of characters that it takes after the first, so cutting loses nothing by construction.
-/

namespace LoxLang

/-- Digits and letters are those of ASCII. -/
def isDigit (character : Char) : Bool :=
  '0' ≤ character && character ≤ '9'

def isLetter (character : Char) : Bool :=
  'a' ≤ character && character ≤ 'z' || 'A' ≤ character && character ≤ 'Z' ||
    character = '_'

def isWordCharacter (character : Char) : Bool :=
  isLetter character || isDigit character

namespace Piece

/-- What a piece is. A stray character and an unclosed string are the errors of a text. -/
inductive Form where
  | symbol (kind : Token.Kind)
  | word | number | string
  | comment | blank | newline
  | stray | unclosed
  deriving DecidableEq

/-- A symbol that a following equals sign makes longer. -/
def withEqual (rest : List Char) (longer shorter : Token.Kind) : Form × Nat :=
  if rest.head? = some '=' then (.symbol longer, 1) else (.symbol shorter, 0)

/-- After its first digit a number takes digits, then a point only together with a digit after it,
and the digits that follow. -/
def numberLength (rest : List Char) : Nat :=
  let whole := (rest.takeWhile isDigit).length
  match rest.drop whole with
  | '.' :: fraction =>
      match (fraction.takeWhile isDigit).length with
      | 0 => whole
      | places + 1 => whole + 1 + (places + 1)
  | _ => whole

/-- After its opening mark a string runs up to the next mark, across lines. -/
def stringForm (rest : List Char) : Form × Nat :=
  let body := (rest.takeWhile (· ≠ '\x22')).length
  if body < rest.length then (.string, body + 1) else (.unclosed, rest.length)

def slashForm : List Char → Form × Nat
  | '/' :: rest => (.comment, 1 + (rest.takeWhile (· ≠ '\n')).length)
  | _ => (.symbol .slash, 0)

/-- The form of the piece that begins with `first`, and how many characters of `rest` belong to it. -/
def begin (first : Char) (rest : List Char) : Form × Nat :=
  match first with
  | '(' => (.symbol .leftParen, 0)
  | ')' => (.symbol .rightParen, 0)
  | '\x7b' => (.symbol .leftBrace, 0)
  | '\x7d' => (.symbol .rightBrace, 0)
  | ',' => (.symbol .comma, 0)
  | '.' => (.symbol .dot, 0)
  | '-' => (.symbol .minus, 0)
  | '+' => (.symbol .plus, 0)
  | ';' => (.symbol .semicolon, 0)
  | '*' => (.symbol .star, 0)
  | '!' => withEqual rest .bangEqual .bang
  | '=' => withEqual rest .equalEqual .equal
  | '<' => withEqual rest .lessEqual .less
  | '>' => withEqual rest .greaterEqual .greater
  | '/' => slashForm rest
  | ' ' => (.blank, 0)
  | '\r' => (.blank, 0)
  | '\t' => (.blank, 0)
  | '\n' => (.newline, 0)
  | '\x22' => stringForm rest
  | _ =>
      if isDigit first then (.number, numberLength rest)
      else if isLetter first then (.word, (rest.takeWhile isWordCharacter).length)
      else (.stray, 0)

end Piece

structure Piece where
  form : Piece.Form
  text : List Char
  deriving DecidableEq

namespace Piece

/-- Cuts a text, after the pieces already cut, last one first. -/
def cutOnto (before : List Piece) : List Char → List Piece
  | [] => before.reverse
  | first :: rest =>
      let (form, length) := begin first rest
      cutOnto (⟨form, first :: rest.take length⟩ :: before) (rest.drop length)
termination_by text => text.length
decreasing_by simp only [List.length_drop, List.length_cons]; omega

def cut (text : List Char) : List Piece :=
  cutOnto [] text

theorem cutOnto_append (before earlier : List Piece) (text : List Char) :
    cutOnto (before ++ earlier) text = earlier.reverse ++ cutOnto before text := by
  fun_induction cutOnto before text with
  | case1 before => simp [cutOnto]
  | case2 before first rest form length h ih =>
      rw [cutOnto.eq_2, h]
      exact ih

@[simp] theorem cut_nil : cut [] = [] := by
  simp [cut, cutOnto]

/-- The first piece of a text, then the pieces of the rest. -/
theorem cut_cons (first : Char) (rest : List Char) :
    cut (first :: rest) =
      ⟨(begin first rest).1, first :: rest.take (begin first rest).2⟩ ::
        cut (rest.drop (begin first rest).2) := by
  rw [cut, cutOnto]
  exact cutOnto_append [] [_] _

/-- Cutting loses nothing. -/
theorem flatMap_text_cut (text : List Char) : (cut text).flatMap Piece.text = text := by
  induction h : text.length using Nat.strongRecOn generalizing text with
  | ind length ih =>
      cases text with
      | nil => simp
      | cons first rest =>
          have hrest := ih (rest.drop (begin first rest).2).length
            (by rw [← h, List.length_drop, List.length_cons]; omega) _ rfl
          rw [cut_cons, List.flatMap_cons, hrest, List.cons_append, List.take_append_drop]

def newlines (piece : Piece) : Nat :=
  piece.text.count '\n'

end Piece

end LoxLang
