import Lox.Session

/-!
# Exit codes

The codes with which the command line tool ends.

## Contents
- `ExitCode`: the codes by name.
- `RunResult.exitCode`: the code that tells the result of a run.
-/

namespace Lox

/-- How the command line tool ends. -/
inductive ExitCode
  | ok | usage | dataError | noInput | software | config
deriving DecidableEq, Repr

namespace ExitCode

def all : List ExitCode := [.ok, .usage, .dataError, .noInput, .software, .config]

def name : ExitCode → String
  | .ok => "ok"
  | .usage => "usage"
  | .dataError => "dataError"
  | .noInput => "noInput"
  | .software => "software"
  | .config => "config"

def toNat : ExitCode → Nat
  | .ok => 0
  | .usage => 64
  | .dataError => 65
  | .noInput => 66
  | .software => 70
  | .config => 78

end ExitCode

/-- The exit code that tells the result of a run. -/
def RunResult.exitCode : RunResult → ExitCode
  | .ok => .ok
  | .syntaxErrors _ | .staticErrors _ => .dataError
  | .runtimeError _ => .software

end Lox
