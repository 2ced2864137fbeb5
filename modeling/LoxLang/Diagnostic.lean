import LoxLang.Token.Basic

/-!
Diagnostics: what is told about an error, whichever part of the work found it.
-/

namespace LoxLang

namespace Diagnostic

/-- The families of errors. The errors of the program reader are a family within those of the
grammar, and every family lies within the general one. -/
inductive Category where
  | general | scan | grammar | reading | resolution | runtime
  deriving DecidableEq

namespace Category

/-- The name of the stage, which the general family lacks. -/
def label : Category → Option String
  | .general => none
  | .scan => some "scan"
  | .grammar | .reading => some "syntax"
  | .resolution => some "resolution"
  | .runtime => some "runtime"

/-- Whether every error of the second family is one of the first. -/
def covers (outer inner : Category) : Bool :=
  outer = .general || outer = inner || (outer = .grammar && inner = .reading)

end Category

end Diagnostic

structure Diagnostic where
  category : Diagnostic.Category
  line : Option Nat
  message : String
  place : String
  /-- The token at which a running program failed. -/
  token : Option Token

/-- A token as the place of an error. -/
def Token.place (token : Token) : String :=
  if token.kind = .endOfInput then " at end" else s!" at '{token.lexeme}'"

namespace Diagnostic

/-- A diagnostic that names the token where it was found. -/
def located (category : Category) (token : Token) (message : String) : Diagnostic :=
  ⟨category, some token.line, message, token.place, none⟩

/-- A failure of a running program, which has a line only if it has a token. -/
def failure (token : Option Token) (message : String) : Diagnostic :=
  ⟨.runtime, token.map Token.line, message, "", token⟩

def lineText (diagnostic : Diagnostic) : String :=
  match diagnostic.line with
  | some line => line.repr
  | none => "None"

def text (diagnostic : Diagnostic) : String :=
  match diagnostic.category, diagnostic.line with
  | .runtime, none => diagnostic.message
  | .runtime, some line => s!"{diagnostic.message}\n[line {line}]"
  | _, _ =>
      s!"[line {diagnostic.lineText}] Error{diagnostic.place}: {diagnostic.message}"

/-- Two diagnostics agree when one's family covers the other's and they tell the same. -/
def agrees (left right : Diagnostic) : Bool :=
  (left.category.covers right.category || right.category.covers left.category) &&
    left.line = right.line && left.message = right.message && left.place = right.place

end Diagnostic

end LoxLang
