import LoxLang.Grammar.Expression
import LoxLang.Proofs.Notation.Numbers

/-!
Tokens and constants in listings. The first character of a constant tells its sort, and each sort has texts of
its own; a token shows its kind by the name, and its lexeme, literal and line after that.
-/

namespace LoxLang

open Notation
open Text.Quoted (IsMark)

/-! ## Constants -/

/-- What the first character of a constant tells. -/
inductive Opening where
  | absent | bool | text | number

def Opening.ofFirst (first : Char) : Opening :=
  if first = 'N' then .absent
  else if first = 'T' ∨ first = 'F' then .bool
  else if first = '\x27' ∨ first = '\x22' then .text
  else .number

def Constant.opening : Constant → Opening
  | .nil => .absent
  | .bool _ => .bool
  | .number _ => .number
  | .text _ => .text

theorem opening_of_isNumeric {first : Char} (numeric : IsNumeric first) : Opening.ofFirst first = .number := by
  have other {symbol : Char} (plain : isDigit symbol = false) (unused : symbol ∉ numberSigns) : first ≠ symbol := by
    rintro rfl
    exact numeric.elim (fun digit => Bool.false_ne_true (plain.symm.trans digit)) unused
  unfold Opening.ofFirst
  rw [if_neg (other rfl (by decide)), if_neg (not_or.mpr ⟨other rfl (by decide), other rfl (by decide)⟩),
    if_neg (not_or.mpr ⟨other rfl (by decide), other rfl (by decide)⟩)]

theorem opening_of_isMark {first : Char} (isMark : IsMark first) : Opening.ofFirst first = .text := by
  rcases isMark with rfl | rfl <;> rfl

theorem opens_constant (value : Constant) :
    ∃ first, Opens first (ofConstant value) ∧ Opening.ofFirst first = value.opening := by
  cases value with
  | nil => exact ⟨'N', ⟨_, rfl⟩, rfl⟩
  | bool value =>
      cases value with
      | false => exact ⟨'F', ⟨_, rfl⟩, rfl⟩
      | true => exact ⟨'T', ⟨_, rfl⟩, rfl⟩
  | number value =>
      obtain ⟨first, opens, numeric⟩ := opens_ofNumber value
      exact ⟨first, opens, opening_of_isNumeric numeric⟩
  | text value =>
      exact ⟨_, ⟨_, String.toList_ofList⟩, opening_of_isMark (Text.Quoted.isMark_mark value.toList)⟩

theorem shows_of_opening {same : Prop} {value other : Constant} (unlike : value.opening ≠ other.opening) :
    Shows same (ofConstant value) (ofConstant other) := by
  obtain ⟨first, opens, tells⟩ := opens_constant value
  obtain ⟨second, opens', tells'⟩ := opens_constant other
  refine shows_of_opens opens opens' fun alike => unlike ?_
  rw [← tells, ← tells', alike]

theorem shows_bool (value other : Bool) : Shows (value = other) (ofBool value) (ofBool other) := by
  have plain (value : Bool) : (ofBool value).toList.all (!isCloser ·) = true := by cases value <;> rfl
  refine (shows_bare (List.all_eq_true.mp (plain value)) (List.all_eq_true.mp (plain other))).mono fun same => ?_
  cases value <;> cases other
  · rfl
  · exact absurd same (by decide)
  · exact absurd same (by decide)
  · rfl

/-- A constant is shown by its text. -/
theorem shows_constant (value other : Constant) : Shows (value = other) (ofConstant value) (ofConstant other) := by
  cases value with
  | nil =>
      cases other with
      | nil => exact (Shows.refl _).mono fun _ => rfl
      | _ => exact shows_of_opening nofun
  | bool value =>
      cases other with
      | bool other => exact (shows_bool value other).mono (congrArg Constant.bool)
      | _ => exact shows_of_opening nofun
  | number value =>
      cases other with
      | number other => exact (shows_number value other).mono (congrArg Constant.number)
      | _ => exact shows_of_opening nofun
  | text value =>
      cases other with
      | text other => exact (shows_quoted value other).mono (congrArg Constant.text)
      | _ => exact shows_of_opening nofun

/-! ## Tokens -/

theorem ofName?_name (kind : Token.Kind) : Token.Kind.ofName? kind.name = some kind := by
  cases kind <;> rfl

/-- A kind in a listing. -/
def kindText (kind : Token.Kind) : String :=
  "<TokenType." ++ (kind.name ++ (": " ++ (kind.rank.repr ++ ">")))

theorem ofToken_eq (token : Token) :
    ofToken token =
      "Token(type=" ++ (kindText token.kind ++ (", lexeme=" ++ (Text.quoted token.lexeme ++ (", literal=" ++
        (ofLiteral token.literal ++ (", line=" ++ (token.line.repr ++ ")"))))))) := by
  have written : ofToken token =
      "Token(type=" ++ ("<TokenType." ++ token.kind.name ++ ": " ++ token.kind.rank.repr ++ ">") ++
        ", lexeme=" ++ Text.quoted token.lexeme ++ ", literal=" ++ ofLiteral token.literal ++
        ", line=" ++ token.line.repr ++ ")" := rfl
  rw [written]
  simp only [kindText, String.append_assoc]

/-- No name of a kind contains the colon that ends it. -/
theorem shows_kind (kind other : Token.Kind) : Shows (kind = other) (kindText kind) (kindText other) := by
  have all (kind : Token.Kind) : kind.name.toList.all (· ≠ ':') = true := by cases kind <;> rfl
  have plain (kind : Token.Kind) := List.all_eq_true.mp (all kind)
  refine .after _ fun rest behind _ _ alike => ?_
  simp only [String.toList_append, List.append_assoc] at alike
  obtain ⟨names, rests⟩ := append_inj_of_ends (plain kind) (plain other) rfl rfl alike
  have same := congrArg Token.Kind.ofName? (String.toList_inj.mp names)
  rw [ofName?_name, ofName?_name] at same
  obtain rfl := Option.some.inj same
  exact ⟨rfl, List.append_cancel_left (List.append_cancel_left (List.append_cancel_left rests))⟩

theorem shows_literal (literal other : Token.Literal) :
    Shows (literal = other) (ofLiteral literal) (ofLiteral other) := by
  have written (literal : Token.Literal) : ofLiteral literal = ofConstant (Grammar.constant literal) := by
    cases literal <;> rfl
  rw [written, written]
  refine (shows_constant _ _).mono fun same => ?_
  cases literal <;> cases other <;> cases same <;> rfl

theorem shows_line (line other : Nat) : Shows (line = other) line.repr other.repr := by
  have plain (line : Nat) : ∀ character ∈ line.repr.toList, (!isCloser character) = true := by
    intro character member
    rw [Nat.repr, String.toList_ofList] at member
    exact not_isCloser_of_isNumeric (.inl ((digits_toDigits line).digits character member))
  exact (shows_bare (plain line) (plain other)).mono Nat.repr_inj.mp

/-- A token is shown in full. -/
theorem shows_token (token other : Token) : Shows (token = other) (ofToken token) (ofToken other) := by
  rw [ofToken_eq, ofToken_eq]
  have line := (shows_line token.line other.line).append (.refl ")") rfl rfl
  have literal := (shows_literal token.literal other.literal).comma ", line=" ⟨_, rfl⟩ line
  have lexeme := (shows_quoted token.lexeme other.lexeme).comma ", literal=" ⟨_, rfl⟩ literal
  have kind := (shows_kind token.kind other.kind).comma ", lexeme=" ⟨_, rfl⟩ lexeme
  refine (kind.after "Token(type=").mono ?_
  rintro ⟨kinds, lexemes, literals, lines, -⟩
  cases token
  cases other
  cases kinds
  cases lexemes
  cases literals
  cases lines
  rfl

theorem opens_token (token : Token) : Opens 'T' (ofToken token) := by
  rw [ofToken_eq]
  exact Opens.append ⟨_, rfl⟩ _

end LoxLang
