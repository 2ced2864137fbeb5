import LoxLang.Binary64
import LoxLang.Diagnostic
import LoxLang.Token.Piece

/-!
The tokens of a text. Symbols, words, numbers and strings become tokens; comments and layout carry no
meaning beyond the lines they take; a stray character or an unclosed string is an error of the text.
The line of a token or error is the one on which its piece ends.
-/

namespace LoxLang

inductive ScanError.Cause where
  | unexpectedCharacter
  | unterminatedString
  deriving DecidableEq

def ScanError.Cause.message : ScanError.Cause → String
  | .unexpectedCharacter => "Unexpected character."
  | .unterminatedString => "Unterminated string."

structure ScanError where
  cause : ScanError.Cause
  line : Nat
  deriving DecidableEq

def ScanError.diagnostic (error : ScanError) : Diagnostic :=
  ⟨.scan, some error.line, error.cause.message, "", none⟩

/-- The number nearest to the decimal written as digits, with or without a point among them. -/
def readNumber (text : List Char) : Float :=
  let whole := text.takeWhile (· ≠ '.')
  let fraction := (text.drop whole.length).drop 1
  Binary64.nearest (Nat.ofDigitChars 10 (whole ++ fraction) 0) (Nat.pow 10 fraction.length)

namespace Piece

/-- What a piece contributes: a token, an error or nothing. -/
inductive Reading where
  | token (kind : Token.Kind) (literal : Token.Literal)
  | error (cause : ScanError.Cause)
  | skipped

def reading (piece : Piece) : Reading :=
  match piece.form with
  | .symbol kind => .token kind .none
  | .word => .token (.ofWord (.ofList piece.text)) .none
  | .number => .token .number (.number (readNumber piece.text))
  | .string => .token .string (.text (.ofList (piece.text.drop 1).dropLast))
  | .comment | .blank | .newline => .skipped
  | .stray => .error .unexpectedCharacter
  | .unclosed => .error .unterminatedString

end Piece

/-- What has been read of a text: tokens and errors, last ones first, and the current line. -/
structure Scan where
  line : Nat
  tokens : List Token
  errors : List ScanError

namespace Scan

def start : Scan :=
  ⟨1, [], []⟩

def add : Scan → Piece → Scan
  | ⟨line, tokens, errors⟩, piece =>
      let line := line + piece.newlines
      match piece.reading with
      | .token kind literal =>
          ⟨line, ⟨kind, .ofList piece.text, literal, line⟩ :: tokens, errors⟩
      | .error cause => ⟨line, tokens, ⟨cause, line⟩ :: errors⟩
      | .skipped => ⟨line, tokens, errors⟩

end Scan

/-- The tokens of a text, the final one included, and the errors in it. -/
structure Tokens where
  tokens : List Token
  errors : List ScanError

/-- The token that ends the text. -/
def Tokens.final (tokens : Tokens) : Token :=
  tokens.tokens.getLastD (.final 1)

def Tokens.ofText (text : String) : Tokens :=
  let scan := (Piece.cut text.toList).foldl Scan.add .start
  ⟨(Token.final scan.line :: scan.tokens).reverse, scan.errors.reverse⟩

end LoxLang
