import LoxLang.Notation.Program
import LoxLang.Store.Forest
import LoxLang.Value.Text

/-!
Scopes of a running program in the notation of listings.
-/

namespace LoxLang.Notation

/-- Values that a program can write down are written in full, others as they are printed. -/
def ofValue : Value → String
  | .nil => absent
  | .bool value => ofBool value
  | .number value => ofNumber value
  | .text value => Text.quoted value
  | value => value.toText

def ofBinding (binding : String × Value) : String :=
  Text.quoted binding.1 ++ ": " ++ ofValue binding.2

def ofScope (scope : Scope) : String :=
  let bindings := ", ".intercalate (scope.bindings.entries.map ofBinding)
  let enclosing := ofBool scope.enclosing.isSome
  "Environment(\x7b" ++ bindings ++ "\x7d, enclosing=" ++ enclosing ++ ")"

end LoxLang.Notation
