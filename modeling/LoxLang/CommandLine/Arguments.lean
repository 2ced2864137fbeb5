import LoxLang.Text.Quoted
import LoxLang.Token.Piece

/-!
The arguments of the command line: at most one script, and options, of which there is only the one that
asks for help. Arguments are taken from left to right. What cannot be placed is collected, and reported
at the end, unless help was asked for on the way.
-/

namespace LoxLang.CommandLine

inductive Request where
  | help
  | script (name : String)
  | prompt
  deriving DecidableEq

inductive UsageError where
  | unrecognized (arguments : List String)
  /-- Help takes no value. -/
  | ignoredValue (value : String)
  deriving DecidableEq

def usage : String :=
  "usage: pylox [-h] [script]\n"

def helpText : String :=
  usage ++ "\nRun Lox scripts\n\npositional arguments:\n  script\n\n" ++
    "options:\n  -h, --help  show this help message and exit\n"

def UsageError.message : UsageError → String
  | .unrecognized arguments => "unrecognized arguments: " ++ " ".intercalate arguments
  | .ignoredValue value =>
      "argument -h/--help: ignored explicit argument " ++ Text.quoted value

def UsageError.report (error : UsageError) : String :=
  usage ++ "pylox: error: " ++ error.message ++ "\n"

inductive Argument where
  | word | help
  | helpWith (value : String)
  | unknown
  deriving DecidableEq

/-- A minus sign and a number are a word. -/
def isNumber (text : List Char) : Bool :=
  let whole := text.takeWhile isDigit
  match text.drop whole.length with
  | [] => !whole.isEmpty
  | '.' :: places => !places.isEmpty && places.all isDigit
  | _ => false

/-- What follows `-h`: more of the same letter, or a value, which it does not take. Other letters
come too late, as help has been asked for. -/
def afterShort : List Char → Argument
  | 'h' :: rest => afterShort rest
  | '=' :: value => .helpWith (.ofList value)
  | '-' :: value => .helpWith (.ofList ('-' :: value))
  | _ => .help

/-- What follows two minus signs: the word `help` or a beginning of it, perhaps with a value. -/
def afterLong? (text : List Char) : Option Argument :=
  let name := text.takeWhile (· ≠ '=')
  if name.isPrefixOf "help".toList then
    match text.drop name.length with
    | [] => some .help
    | _ :: value => some (.helpWith (.ofList value))
  else
    none

/-- An argument that begins like an option and is none is a word if it holds a blank. -/
def optionOrWord (text : List Char) : Argument :=
  if text.contains ' ' then .word else .unknown

def classify (argument : String) : Argument :=
  match argument.toList with
  | '-' :: '-' :: text => (afterLong? text).getD (optionOrWord text)
  | '-' :: 'h' :: text => afterShort text
  | ['-'] => .word
  | '-' :: text => if isNumber text then .word else optionOrWord text
  | _ => .word

def finish (script : Option String) (extras : List String) : Except UsageError Request :=
  match extras, script with
  | [], some name => .ok (.script name)
  | [], none => .ok .prompt
  | extras, _ => .error (.unrecognized extras)

/-- Takes arguments from left to right, the script and the unplaced ones before them being known. Two
minus signs end the options; they count as placed if they stand beside the script. -/
def place (script : Option String) (extras : List String) :
    List String → Except UsageError Request
  | [] => finish script extras
  | "--" :: rest =>
      match script, rest with
      | none, [] => finish none extras
      | none, name :: rest => finish (some name) (extras ++ rest)
      | some name, rest => finish (some name) (extras ++ "--" :: rest)
  | argument :: rest =>
      match classify argument with
      | .help => .ok .help
      | .helpWith value => .error (.ignoredValue value)
      | .unknown => place script (extras ++ [argument]) rest
      | .word =>
          match script, rest with
          | none, "--" :: rest => finish (some argument) (extras ++ rest)
          | none, rest => place (some argument) extras rest
          | some name, rest => place (some name) (extras ++ [argument]) rest

def Request.ofArguments (arguments : List String) : Except UsageError Request :=
  place none [] arguments

end LoxLang.CommandLine
