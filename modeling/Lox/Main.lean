import Lox.CommandLine.Tool
import Std.Time.DateTime.Timestamp

/-!
# Entry point

Reads the files that the command line names and standard input, and writes what the tool says.

## Contents
- `readFile`, `readFiles`: the files of the disk.
- `systemHost`: the clock and the random numbers of the system.
- `write`: what an outcome says.
- `main`: the process.
-/

namespace Lox.CommandLine

/-- The text of a file on the disk. A path that cannot be opened for its kind goes through a file;
one that is opened and cannot be read is a directory. -/
def readFile (path : String) : IO (Except FileError String) := do
  try
    return .ok (← IO.FS.readFile path)
  catch
    | .noFileOrDirectory .. => return .error .missing
    | .inappropriateType (some _) .. => return .error .notDirectory
    | .inappropriateType none .. => return .error .isDirectory
    | .invalidArgument (some _) .. => return .error .nameTooLong
    | e => throw e

/-- The files that the tool reads for the given arguments. -/
def readFiles (args : List String) : IO Files := do
  let known ← (paths args).mapM fun path => return (path, ← readFile path)
  return fun path => (known.lookup path).getD (.error .missing)

/-- A host with the time of the start of the process and with random numbers of its own. -/
def systemHost : IO Host := do
  let now ← Std.Time.Timestamp.now
  let seconds := now.toMillisecondsSinceUnixEpoch.val.toNat.toFloat / 1000
  let seed ← IO.rand 0 1000000000
  return { Host.plain with
    clock := fun _ => seconds
    random := fun n => Host.goldenFraction (seed + n) }

/-- The status with which the process ends. -/
def Ending.status : Ending → UInt32
  | .code c => c.toNat.toUInt32
  | .exit x =>
    let magnitude := ((Decimal.toNat? x.abs).getD 0) % 256
    (if x < 0 then (256 - magnitude) % 256 else magnitude).toUInt32

/-- What is shown when the process breaks off. -/
def Crash.display : Crash → String
  | .setup e => e.message
  | .stop (.failure (.runtime e)) => e.diagnostic.display
  | .stop (.failure (.internal e)) => e.diagnostic.display
  | .stop (.failure .stackExhausted) => "Maximum call stack size exceeded"
  | .stop (.failure (.host message)) => message
  | .stop (.failure (.exited _)) | .stop .outOfFuel => ""

def writeOut (text : String) : IO Unit := do
  let out ← IO.getStdout
  out.putStr text
  out.flush

def writeErr (text : String) : IO Unit := do
  let err ← IO.getStderr
  err.putStr text
  err.flush

/-- Writes what came of a part of the work. -/
def write : Except Crash Outcome → IO UInt32
  | .ok outcome => do
    writeOut outcome.out
    writeErr outcome.err
    return outcome.ending.status
  | .error crash => do
    writeErr (asLines [crash.display])
    return ExitCode.software.toNat.toUInt32

/-- Reads standard input line by line and answers each line before it reads the next one. -/
partial def serve (prompt : String) (session : Session) : IO UInt32 := do
  writeOut prompt
  let line ← (← IO.getStdin).getLine
  match Text.lines line.toList with
  | [] => return ExitCode.ok.toNat.toUInt32
  | line :: _ =>
    if Text.isBlankText line then serve prompt session
    else
      match respond session line with
      | .error crash => write (.error crash)
      | .ok (response, session) =>
        let status ← write (.ok response.outcome)
        match response.ending with
        | .exit _ => return status
        | .code _ => serve prompt session

end Lox.CommandLine

open Lox Lox.CommandLine

/-- Runs the command line tool. -/
def main (args : List String) : IO UInt32 := do
  let host ← systemHost
  match prepare (← readFiles args) args with
  | .session config =>
    match Session.create (config.options (terminating host)) with
    | .ok session => serve (Text.ofUnits config.prompt) session
    | .error e => write (.error (.setup e))
  | plan => write (plan.perform host "")
