import Lox.CommandLine.Arguments
import Lox.CommandLine.Outcome
import Lox.Config.File

/-!
# The command line tool

The tool reads its arguments, its configuration and its script, in this order; the first that is
wrong ends it.

## Contents
- `Plan`: what is left to do once everything is read.
- `prepare`: everything up to that.
- `Plan.perform`, `run`: the whole tool.
-/

namespace Lox.CommandLine

/-- What is left to do once everything is read. -/
inductive Plan
  /-- The tool is done. -/
  | finished (outcome : Outcome)
  | program (config : Config) (source : String)
  | session (config : Config)

/-- Ends the tool with an error. -/
def refuse (code : ExitCode) (texts : List String) : Plan :=
  .finished ⟨"", asLines texts, .code code⟩

/-- Ends the tool after it has shown a text. -/
def tell (text : String) : Plan := .finished ⟨asLines [text], "", .code .ok⟩

/-- Reads the arguments, the configuration and the script. -/
def prepare (files : Files) (args : List String) : Plan :=
  match Request.ofArgs args with
  | .error e => refuse .usage [e.message, usage]
  | .ok .help => tell usage
  | .ok .version => tell version
  | .ok (.run job configPath) =>
    match Config.load files configPath with
    | .error e => refuse .config [e.message]
    | .ok config =>
      match job with
      | .source text => .program config text
      | .interactive => .session config
      | .script path =>
        match files path with
        | .ok source => .program config source
        | .error e => refuse .noInput [(e.outer path).display]

/-- Does what is left to do. -/
def Plan.perform (host : Host) (input : String) : Plan → Except Crash Outcome
  | .finished outcome => .ok outcome
  | .program config source =>
    (execute (config.options (terminating host)) source.toList).map (·.outcome)
  | .session config =>
    interact config.prompt (config.options (terminating host)) input.toList

/-- Runs the tool on the given files, arguments and standard input. -/
def run (host : Host) (files : Files) (args : List String) (input : String) :
    Except Crash Outcome :=
  (prepare files args).perform host input

/-- The files that the tool reads for the given arguments. -/
def paths (args : List String) : List String :=
  match Request.ofArgs args with
  | .ok (.run job configPath) =>
    configPath.getD Config.fileName ::
      match job with
      | .script path => [path]
      | _ => []
  | _ => []

end Lox.CommandLine
