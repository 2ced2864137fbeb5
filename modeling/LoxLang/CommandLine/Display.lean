import LoxLang.CommandLine.Folder
import LoxLang.Session

/-!
What the command line shows of errors, and the status that it exits with. Some texts are set off by a style; what is
written for it depends on where the texts are shown.
-/

namespace LoxLang.CommandLine

inductive Style where
  | bold | red | boldRed

/-- What is written for a text in a style. -/
abbrev Painting := Style → String → String

namespace Painting

def plain : Painting :=
  fun _ text => text

/-- Control sequences around a text, for a terminal that shows colours. -/
def coloured : Painting
  | .bold, text => "\x1b[1m" ++ text ++ "\x1b[0m"
  | .red, text => "\x1b[31m" ++ text ++ "\x1b[0m"
  | .boldRed, text => "\x1b[1m\x1b[31m" ++ text ++ "\x1b[0m"

end Painting

/-- The place is shown only together with a line. -/
def display (paint : Painting) (diagnostic : Diagnostic) : String :=
  let label := paint .boldRed (diagnostic.category.label.getD "None" ++ " error")
  match diagnostic.line with
  | none => label ++ ": " ++ diagnostic.message
  | some line =>
      paint .bold s!"[line {line}]" ++ " " ++ label ++ diagnostic.place ++ ": " ++ diagnostic.message

def displayAll (paint : Painting) (errors : List Error) : String :=
  String.join (errors.map fun error => display paint error.diagnostic ++ "\n")

def displayUnopened (paint : Painting) (name : String) (error : OpenError) : String :=
  paint .red ("could not open '" ++ name ++ "': " ++ error.message) ++ "\n"

namespace Status

def ok : Nat := 0
def badUsage : Nat := 2
def unopened : Nat := 64
def staticError : Nat := 65
def runtimeError : Nat := 70

def ofErrors (errors : List Error) : Nat :=
  match errors with
  | [] => ok
  | errors =>
      if errors.any fun
        | .runtime _ => true
        | _ => false
      then runtimeError else staticError

end Status

end LoxLang.CommandLine
