/-!
Tokens: the words that a program is made of, each with the line on which it ends.
-/

namespace LoxLang

namespace Token

inductive Kind where
  | leftParen | rightParen | leftBrace | rightBrace
  | comma | dot | minus | plus | semicolon | slash | star
  | bang | bangEqual | equal | equalEqual
  | greater | greaterEqual | less | lessEqual
  | identifier | string | number
  | and | break | «class» | continue | else | false | fun | for | if | nil | or
  | print | return | super | this | true | var | while
  | endOfInput
  deriving DecidableEq

/-- The value that a token carries: that of a string or number, else none. -/
inductive Literal where
  | none
  | text (value : String)
  | number (value : Float)
  deriving DecidableEq

/-- The words that are no identifiers. -/
def keywords : List (String × Kind) :=
  [("and", .and), ("break", .break), ("class", .class), ("continue", .continue),
    ("else", .else), ("false", .false), ("for", .for), ("fun", .fun), ("if", .if),
    ("nil", .nil), ("or", .or), ("print", .print), ("return", .return),
    ("super", .super), ("this", .this), ("true", .true), ("var", .var),
    ("while", .while)]

def Kind.ofWord (word : String) : Kind :=
  (keywords.lookup word).getD .identifier

end Token

structure Token where
  kind : Token.Kind
  lexeme : String
  literal : Token.Literal
  line : Nat
  deriving DecidableEq

/-- The token that ends every list of tokens. -/
def Token.final (line : Nat) : Token :=
  ⟨.endOfInput, "", .none, line⟩

end LoxLang
