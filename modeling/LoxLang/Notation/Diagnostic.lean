import LoxLang.Diagnostic
import LoxLang.Notation.Token

/-!
Diagnostics in the notation of listings.
-/

namespace LoxLang.Notation

def categoryName : Diagnostic.Category → String
  | .general => "LoxError"
  | .scan => "LoxScanError"
  | .grammar => "LoxSyntaxError"
  | .reading => "Error"
  | .resolution => "LoxResolutionError"
  | .runtime => "LoxRuntimeError"

/-- A failure of a running program is written with its token, any other with line and place. -/
def ofDiagnostic (diagnostic : Diagnostic) : String :=
  let name := categoryName diagnostic.category
  let message := Text.quoted diagnostic.message
  match diagnostic.category with
  | .runtime =>
      let token := match diagnostic.token with
        | none => "None"
        | some token => ofToken token
      s!"{name}({token}, {message})"
  | _ => s!"{name}({diagnostic.lineText}, {message}, {Text.quoted diagnostic.place})"

end LoxLang.Notation
