import LoxLang.CommandLine.Basic
import Std.Time.DateTime.Timestamp

/-!
The command line on a real system. Programs are run in slices, between which what they have printed is
written and the clock is read.
-/

namespace LoxLang.CommandLine

def sliceLength : Nat := 100000

/-- The limit to every kind of nesting. -/
def depthLimit : Nat := 20000

/-- The time in seconds since the beginning of 1970. -/
def readClock : IO Float := do
  let now ← Std.Time.Timestamp.now
  return Float.ofInt now.toNanosecondsSinceUnixEpoch.toInt / 1.0e9

/-- Colours are for terminals that can show them, unless the environment says otherwise. -/
def readPainting : IO Painting := do
  let isSet (name : String) : IO Bool := return (← IO.getEnv name).isSome
  if (← isSet "ANSI_COLORS_DISABLED") || (← isSet "NO_COLOR") then
    return .plain
  else if ← isSet "FORCE_COLOR" then
    return .coloured
  else if (← IO.getEnv "TERM") = some "dumb" then
    return .plain
  else
    return if ← (← IO.getStdout).isTty then .coloured else .plain

def write (text : String) : IO Unit := do
  let output ← IO.getStdout
  output.putStr text
  output.flush

def writeError (text : String) : IO Unit :=
  IO.eprint text

partial def runLive (host : Host) : Machine → IO Machine
  | machine => do
      let host := { host with now := ← readClock }
      match machine.advance host sliceLength with
      | ⟨control, frames, scope, height, store⟩ =>
          let (printed, store) := store.takePrinted
          unless printed.isEmpty do write (printedText printed)
          let machine := ⟨control, frames, scope, height, store⟩
          if machine.isFinal then return machine else runLive host machine

/-- Runs a source in a session and writes what it shows. Nothing catches a fault. -/
def runSource (paint : Painting) (session : Session) (source : String) : IO (List Error × Session) := do
  let (errors, session) ← match prepare depthLimit source with
    | .error errors => pure (errors, session)
    | .ok statements =>
        let (host, machine) := session.load ⟨depthLimit, 0, 0⟩ statements
        let (run, session) := Session.unload host (← runLive host machine)
        match run.errors with
        | .ok errors => pure (errors, session)
        | .error fault => throw (.userError fault.message)
  writeError (displayAll paint errors)
  return (errors, session)

def openScript (name : String) : IO (Except OpenError ByteArray) := do
  try
    return .ok (← IO.FS.readBinFile name)
  catch error =>
    match error with
    | .noFileOrDirectory .. => return .error .notFound
    | .inappropriateType _ code _ =>
        return .error (if code = 21 then .isFolder else .notFolder)
    | error => return .error (.other (toString error))

/-- Runs a script. One that is no text ends the program as a fault does. -/
def runScript (paint : Painting) (name : String) : IO Nat := do
  match ← openScript name with
  | .error error =>
      writeError (displayUnopened paint name error)
      return Status.unopened
  | .ok content =>
      match decodeScript? content with
      | none => throw (.userError ("could not decode '" ++ name ++ "'"))
      | some source =>
          let (errors, _) ← runSource paint (.start []) source
          return Status.ofErrors errors

partial def runPrompt (paint : Painting) (session : Session) : IO Nat := do
  write promptMark
  match inputLines (← (← IO.getStdin).getLine) with
  | [] =>
      write "\n"
      return Status.ok
  | line :: _ =>
      let (_, session) ← runSource paint session line
      runPrompt paint session

end LoxLang.CommandLine

open LoxLang.CommandLine in
def main (arguments : List String) : IO UInt32 := do
  let paint ← readPainting
  let status ← match Request.ofArguments arguments with
    | .error error =>
        writeError error.report
        pure Status.badUsage
    | .ok .help =>
        write helpText
        pure Status.ok
    | .ok (.script name) => runScript paint name
    | .ok .prompt => runPrompt paint (.start [])
  return status.toUInt32
