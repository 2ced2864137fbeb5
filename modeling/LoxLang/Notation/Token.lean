import LoxLang.Decimal.Layout
import LoxLang.Text.Quoted
import LoxLang.Token.Basic

/-!
Tokens in the notation of listings, in which every part of a token can be read off.
-/

namespace LoxLang

namespace Token

/-- The kinds in the order in which they are numbered, with their names. -/
def Kind.names : List (Kind × String) :=
  [(.leftParen, "LEFT_PAREN"), (.rightParen, "RIGHT_PAREN"), (.leftBrace, "LEFT_BRACE"),
    (.rightBrace, "RIGHT_BRACE"), (.comma, "COMMA"), (.dot, "DOT"), (.minus, "MINUS"),
    (.plus, "PLUS"), (.semicolon, "SEMICOLON"), (.slash, "SLASH"), (.star, "STAR"),
    (.bang, "BANG"), (.bangEqual, "BANG_EQUAL"), (.equal, "EQUAL"),
    (.equalEqual, "EQUAL_EQUAL"), (.greater, "GREATER"), (.greaterEqual, "GREATER_EQUAL"),
    (.less, "LESS"), (.lessEqual, "LESS_EQUAL"), (.identifier, "IDENTIFIER"),
    (.string, "STRING"), (.number, "NUMBER"), (.and, "AND"), (.break, "BREAK"),
    (.class, "CLASS"), (.continue, "CONTINUE"), (.else, "ELSE"), (.false, "FALSE"),
    (.fun, "FUN"), (.for, "FOR"), (.if, "IF"), (.nil, "NIL"), (.or, "OR"),
    (.print, "PRINT"), (.return, "RETURN"), (.super, "SUPER"), (.this, "THIS"),
    (.true, "TRUE"), (.var, "VAR"), (.while, "WHILE"), (.endOfInput, "EOF")]

def Kind.name (kind : Kind) : String :=
  (names.lookup kind).getD ""

/-- The place of a kind among all, from one. -/
def Kind.rank (kind : Kind) : Nat :=
  names.findIdx (·.1 = kind) + 1

def Kind.ofName? (name : String) : Option Kind :=
  (names.find? (·.2 = name)).map Prod.fst

end Token

namespace Notation

/-- Numbers keep a point, and have an exponent below `10 ^ (-4)` and from `10 ^ 16` on. -/
def numberLayout : Decimal.Layout :=
  ⟨-4, 16, ['.', '0'], 2⟩

def ofNumber (number : Float) : String :=
  match Binary64.Parts.ofFloat number with
  | .nan => "nan"
  | .infinite negative => if negative then "-inf" else "inf"
  | .finite negative magnitude =>
      let digits := numberLayout.write (.shortest magnitude)
      .ofList (if negative then '-' :: digits else digits)

def ofLiteral : Token.Literal → String
  | .none => "None"
  | .text value => Text.quoted value
  | .number value => ofNumber value

def ofToken (token : Token) : String :=
  let kind := s!"<TokenType.{token.kind.name}: {token.kind.rank}>"
  let lexeme := Text.quoted token.lexeme
  s!"Token(type={kind}, lexeme={lexeme}, literal={ofLiteral token.literal}, line={token.line})"

end Notation

/-- A token in a listing of tokens: its kind, lexeme and literal. -/
def Token.text (token : Token) : String :=
  let literal := match token.literal with
    | .text value => value
    | literal => Notation.ofLiteral literal
  s!"{token.kind.name} {token.lexeme} {literal}"

end LoxLang
