import Lox.ExitCode
import Lox.Text.Line

/-!
# Outcomes

What the tool writes, and how it ends. A program may end the process on its own; nothing that comes
after that is shown.

## Contents
- `Ending`, `Crash`, `Outcome`: how the process ends, and what it has written.
- `terminating`: a host that grants the wish to end.
- `Response`, `respond`: what an input to a session leads to.
- `execute`: a whole program.
- `Transcript`, `converse`, `interact`: an interactive session.
-/

namespace Lox.CommandLine

/-- How a process ends. -/
inductive Ending
  | code (code : ExitCode)
  /-- The program ended it. -/
  | exit (code : Float)

/-- Why a process breaks off. -/
inductive Crash
  | setup (e : SetupError)
  | stop (stop : Stop)

/-- What a process has written, and how it ended. -/
structure Outcome where
  out : String
  err : String
  ending : Ending

/-- The texts, each on a line of its own. -/
def asLines (texts : List String) : String := String.join (texts.map (· ++ "\n"))

/-- A host on which the process ends when the program asks for it. -/
def terminating (host : Host) : Host := { host with onExit := fun _ code => some (.exited code) }

/-- The texts that are printed by the events after the first `count`. -/
def printedAfter (count : Nat) (events : Array Event) : List String :=
  (events.toList.drop count).filterMap fun
    | .print text => some text
    | .exit _ => none

/-! ## Inputs -/

/-- What an input leads to. -/
structure Response where
  printed : List String
  diagnostics : List String
  /-- How the process ends, if the input is the last one. -/
  ending : Ending

/-- What a run leads to in which `session` came about, after `count` events. -/
def Response.ofRun (count : Nat) (result : Except Stop RunResult) (session : Session) :
    Except Crash Response :=
  let printed := printedAfter count session.machine.events
  match result with
  | .ok result => .ok ⟨printed, result.lines, .code result.exitCode⟩
  | .error (.failure (.exited code)) => .ok ⟨printed, [], .exit code⟩
  | .error stop => .error (.stop stop)

/-- Gives an input to a session. -/
def respond (session : Session) (input : List Char) : Except Crash (Response × Session) :=
  let (result, session') := session.run input
  (Response.ofRun session.machine.events.size result session').map (·, session')

/-! ## Whole programs -/

/-- Runs a whole program. -/
def execute (options : Options) (source : List Char) : Except Crash Response :=
  match runSource options source with
  | .error e => .error (.setup e)
  | .ok (result, session) => Response.ofRun 0 result session

/-- What is written when a whole program is run. -/
def Response.outcome (r : Response) : Outcome :=
  ⟨asLines r.printed, asLines r.diagnostics, r.ending⟩

/-! ## Interactive sessions -/

/-- What an interactive session has written, and how it ended. The output is a sequence of units:
half of a pair at the end of a prompt may find its other half at the beginning of the next one. -/
structure Transcript where
  out : List Nat
  err : String
  ending : Ending

/-- What is written when a session is held. -/
def Transcript.outcome (t : Transcript) : Outcome := ⟨Text.ofUnits t.out, t.err, t.ending⟩

/-- Reads the given lines one by one. The prompt stands in front of the first line and after every
line; blank lines are not run. Errors are told, and the session goes on. -/
def converse (prompt : List Nat) (session : Session) :
    List (List Char) → Except Crash Transcript
  | [] => .ok ⟨prompt, "", .code .ok⟩
  | line :: lines =>
    if Text.isBlankText line then
      (converse prompt session lines).map fun t => { t with out := prompt ++ t.out }
    else
      match respond session line with
      | .error crash => .error crash
      | .ok (response, session') =>
        let out := prompt ++ Text.toUnits (asLines response.printed)
        let err := asLines response.diagnostics
        match response.ending with
        | .exit code => .ok ⟨out, err, .exit code⟩
        | .code _ =>
          (converse prompt session' lines).map fun t =>
            { t with out := out ++ t.out, err := err ++ t.err }

/-- An interactive session on the given input. -/
def interact (prompt : List Nat) (options : Options) (input : List Char) : Except Crash Outcome :=
  match Session.create options with
  | .error e => .error (.setup e)
  | .ok session => (converse prompt session (Text.lines input)).map (·.outcome)

end Lox.CommandLine
