import LoxLang.Grammar.Statement
import LoxLang.Machine.Step
import LoxLang.Scoping.Marking
import LoxLang.Token.Reading

/-!
Sessions. A session runs one source after another; the globals that one source leaves are there for the
next. A source with an error in its text is not run at all, and leaves the session as it was.
-/

namespace LoxLang

inductive Error where
  | scan (error : ScanError)
  | grammar (error : SyntaxError)
  | resolution (error : ResolutionError)
  | runtime (error : RuntimeError)

def Error.diagnostic : Error → Diagnostic
  | .scan error => error.diagnostic
  | .grammar error => error.diagnostic
  | .resolution error => error.diagnostic
  | .runtime error => error.diagnostic

/-- What a source is run under: the limit to every kind of nesting, the time, and the number of steps
after which it is given up. -/
structure Setting where
  depthLimit : Nat
  now : Float
  fuel : Nat

/-- The marked statements of a source, or the errors of its text. Errors of its tokens and of its grammar
come together, those of its scopes only when there are no others. -/
def prepare (depthLimit : Nat) (source : String) : Except (List Error) (List Stmt) :=
  let tokens := Tokens.ofText source
  let program := Program.ofTokens depthLimit tokens.tokens
  match tokens.errors.map Error.scan ++ program.errors.map Error.grammar with
  | [] =>
      let marked := Scoping.mark depthLimit tokens.final program.statements
      match marked.errors with
      | [] => .ok marked.statements
      | errors => .error (errors.map Error.resolution)
  | errors => .error errors

structure Session where
  natives : Array Native
  store : Store

/-- What a run of statements shows: the lines printed and what ended it early. -/
structure Run where
  printed : Array String
  interruption : Option Interruption

/-- The errors that a run ends with, unless it ends at a fault. -/
def Run.errors (run : Run) : Except Fault (List Error) :=
  match run.interruption with
  | none => .ok []
  | some (.error error) => .ok [.runtime error]
  | some (.fault fault) => .error fault

/-- What a source shows: the lines printed and its errors, unless there was a fault. -/
structure Report where
  printed : Array String
  errors : Except Fault (List Error)

namespace Session

def addNative : Session → Native → Session
  | ⟨natives, store⟩, native =>
      ⟨natives.push native, store.define Forest.globals native.name (.native natives.size)⟩

def clock : Native :=
  ⟨"clock", 0, fun now _ => .number now⟩

/-- A new session knows the clock and some further functions. -/
def start (natives : List Native) : Session :=
  (clock :: natives).foldl addNative ⟨#[], .initial⟩

/-- The names and values of the globals, in the order in which they were first bound. -/
def globals (session : Session) : List (String × Value) :=
  (session.store.forest.bindings Forest.globals).entries

/-- Begins to run statements. -/
def load : Session → Setting → List Stmt → Host × Machine
  | ⟨natives, store⟩, setting, statements =>
      (⟨natives, setting.depthLimit, setting.now⟩, .load statements store)

/-- What a machine shows at its end, and the session that goes on from there. -/
def unload (host : Host) : Machine → Run × Session
  | ⟨control, _, _, _, store⟩ =>
      let (printed, store) := store.takePrinted
      (⟨printed, control.interruption?⟩, ⟨host.natives, store⟩)

/-- Runs statements, whatever their marks and errors. -/
def execute? (setting : Setting) (session : Session) (statements : List Stmt) :
    Option (Run × Session) :=
  let (host, machine) := session.load setting statements
  (Machine.run? host setting.fuel machine).map (unload host)

/-- Runs a source. There is no result if the setting gives it up. -/
def run? (setting : Setting) (session : Session) (source : String) : Option (Report × Session) :=
  match prepare setting.depthLimit source with
  | .error errors => some (⟨#[], .ok errors⟩, session)
  | .ok statements =>
      (session.execute? setting statements).map fun (run, session) =>
        (⟨run.printed, run.errors⟩, session)

end Session

end LoxLang
