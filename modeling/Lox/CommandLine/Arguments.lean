/-!
# Arguments

A command line asks for a script, for a source text, or for an interactive session, each with a
configuration file if one is named, or for help or the version.

## Contents
- `Job`, `Request`: what can be asked for.
- `UsageError`: why a command line asks for nothing.
- `Request.ofArgs`: what a command line asks for.
- `usage`, `version`: what is shown for help and as version.
-/

namespace Lox.CommandLine

/-- What is to be run. -/
inductive Job
  /-- The script in a file. -/
  | script (path : String)
  /-- A source text given on the command line. -/
  | source (text : String)
  /-- The inputs of an interactive session. -/
  | interactive
deriving DecidableEq, Repr

/-- What a command line asks for. -/
inductive Request
  | run (job : Job) (configPath : Option String)
  | help
  | version
deriving DecidableEq, Repr

/-- Why a command line asks for nothing. -/
inductive UsageError
  /-- The command line ends where `option` needs a value. -/
  | missingValue (option : String)
  | unknownOption (option : String)
  /-- There is something to run already. -/
  | unexpected (arg : String)
deriving DecidableEq, Repr

def UsageError.message : UsageError → String
  | .missingValue option => "Missing value after " ++ option
  | .unknownOption option => "Unknown option: " ++ option
  | .unexpected arg => "Unexpected argument: " ++ arg

/-- Whether an argument has the form of an option. -/
def isOption (arg : String) : Bool := arg.toList.head? == some '-'

namespace Request

/-- What the arguments ask for that follow a configuration path and a job. Without a job, an
interactive session is asked for. -/
def read (job : Option Job) (configPath : Option String) : List String → Except UsageError Request
  | [] => .ok (.run (job.getD .interactive) configPath)
  | arg :: args =>
    if arg = "--help" ∨ arg = "-h" then .ok .help
    else if arg = "--version" ∨ arg = "-v" then .ok .version
    else if arg = "--config" then
      match args with
      | [] => .error (.missingValue arg)
      | value :: args => read job (some value) args
    else if arg = "-c" then
      match args with
      | [] => .error (.missingValue arg)
      | value :: args =>
        if job.isSome then .error (.unexpected arg) else read (some (.source value)) configPath args
    else if isOption arg then .error (.unknownOption arg)
    else if job.isSome then .error (.unexpected arg)
    else read (some (.script arg)) configPath args

/-- What a command line asks for. -/
def ofArgs (args : List String) : Except UsageError Request := read none none args

end Request

/-- How the tool is used. -/
def usage : String := String.intercalate "\n"
  ["Usage:",
   "  treelox                     Start an interactive session",
   "  treelox <script>            Run a script file",
   "  treelox -c <source>         Run source given on the command line",
   "  treelox --config <file>     Read configuration from <file> instead of .treelox.yaml",
   "  treelox --help              Show this help message",
   "  treelox --version           Show version information"]

/-- The version of the tool. -/
def version : String := "0.1.0"

end Lox.CommandLine
