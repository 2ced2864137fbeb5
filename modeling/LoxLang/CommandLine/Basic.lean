import LoxLang.CommandLine.Arguments
import LoxLang.CommandLine.Display

/-!
The command line: a script is run to its end, and without one a prompt runs each line as it comes, all
lines in one session.
-/

namespace LoxLang.CommandLine

/-- How a call of the command line ends: with a status, or because a script is no text, or at a
fault. -/
inductive Ending where
  | exit (status : Nat)
  | undecodable
  | fault (fault : Fault)

structure Outcome where
  output : String
  errors : String
  ending : Ending

/-- A text in which every way to end a line counts as a newline, after what has been gone through, last
character first. -/
def normalizeOnto (before : List Char) : List Char → List Char
  | [] => before.reverse
  | '\r' :: '\n' :: rest => normalizeOnto ('\n' :: before) rest
  | '\r' :: rest => normalizeOnto ('\n' :: before) rest
  | character :: rest => normalizeOnto (character :: before) rest

def decodeScript? (content : ByteArray) : Option String :=
  (String.fromUTF8? content).map fun text => .ofList (normalizeOnto [] text.toList)

def printedText (printed : Array String) : String :=
  String.join (printed.toList.map (· ++ "\n"))

def runSource? (paint : Painting) (setting : Setting) (source : String) : Option Outcome :=
  (Session.run? setting (.start []) source).map fun (report, _) =>
    let output := printedText report.printed
    match report.errors with
    | .ok errors => ⟨output, displayAll paint errors, .exit (Status.ofErrors errors)⟩
    | .error fault => ⟨output, "", .fault fault⟩

/-- Runs the script of that name, given what opening it yields. -/
def runScript? (paint : Painting) (setting : Setting) (name : String)
    (opened : Except OpenError ByteArray) : Option Outcome :=
  match opened with
  | .error error => some ⟨"", displayUnopened paint name error, .exit Status.unopened⟩
  | .ok content =>
      match decodeScript? content with
      | none => some ⟨"", "", .undecodable⟩
      | some source => runSource? paint setting source

/-- What the prompt writes before each line. -/
def promptMark : String := "> "

/-- The lines of an input. What follows the last newline is a line unless it is empty. -/
def inputLines (input : String) : List String :=
  let lines := input.splitOn "\n"
  if lines.getLast? = some "" then lines.dropLast else lines

/-- Answers lines one after the other, after what has been written so far. The errors of a line are
shown and forgotten. -/
def answerLines? (paint : Painting) (setting : Setting) (session : Session) (output errors : String) :
    List String → Option Outcome
  | [] => some ⟨output ++ promptMark ++ "\n", errors, .exit Status.ok⟩
  | line :: rest =>
      match session.run? setting line with
      | none => none
      | some (report, session) =>
          let output := output ++ promptMark ++ printedText report.printed
          match report.errors with
          | .ok found => answerLines? paint setting session output (errors ++ displayAll paint found) rest
          | .error fault => some ⟨output, errors, .fault fault⟩

def runPrompt? (paint : Painting) (setting : Setting) (input : String) : Option Outcome :=
  answerLines? paint setting (.start []) "" "" (inputLines input)

/-- Calls the command line in a folder, with some input to read. Colours are shown unless told how else to paint. -/
def run? (setting : Setting) (arguments : List String) (folder : Folder) (input : String)
    (paint : Painting := .coloured) : Option Outcome :=
  match Request.ofArguments arguments with
  | .error error => some ⟨"", error.report, .exit Status.badUsage⟩
  | .ok .help => some ⟨helpText, "", .exit Status.ok⟩
  | .ok (.script name) => runScript? paint setting name (folder.read name)
  | .ok .prompt => runPrompt? paint setting input

end LoxLang.CommandLine
