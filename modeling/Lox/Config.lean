import Lox.Datum
import Lox.Session

/-!
# Configuration

What the command line tool lets its users choose. A configuration is checked entry by entry against
the keys that there are; the first entry that does not fit decides the error.

## Contents
- `Config`, `Config.standard`: the choices, and what they are when nothing is chosen.
- `ConfigError`: why there is no configuration.
- `Config.ofDatum`: the configuration that a document gives.
- `Config.options`: the sessions that a configuration asks for.
-/

namespace Lox

/-- What the users of the tool may choose. -/
structure Config where
  /-- How many calls may be in progress at once. -/
  maxCallDepth : Float
  /-- Whether the built-in functions are defined. -/
  natives : Bool
  /-- The units of what is shown before each input of an interactive session. -/
  prompt : List Nat
  /-- Whether an interactive session prints the value of a single expression. -/
  echo : Bool

namespace Config

/-- The configuration when nothing is chosen. -/
def standard : Config := ⟨defaultMaxCallDepth.toFloat, true, Text.toUnits "> ", true⟩

/-- The name of the file from which a configuration is read unless another one is named. -/
def fileName : String := ".treelox.yaml"

end Config

/-- Why there is no configuration. -/
inductive ConfigError
  /-- The document is not a mapping. -/
  | notMapping
  | callDepth
  /-- The value of `key` is neither true nor false. -/
  | notBool (key : String)
  | promptNotString
  | unknownKey (key : String)
  /-- The text is not a document. -/
  | notYaml
  | fileNotFound (path : String)
  /-- The file cannot be read, for a reason that the file system gives. -/
  | unreadable (reason : String)
deriving DecidableEq, Repr

namespace ConfigError

/-- What is wrong, in words. -/
def reason : ConfigError → String
  | .notMapping => "must be a mapping"
  | .callDepth => "maxCallDepth must be a positive integer"
  | .notBool key => key ++ " must be a boolean"
  | .promptNotString => "prompt must be a string"
  | .unknownKey key => "unknown key " ++ key
  | .notYaml => "invalid YAML"
  | .fileNotFound path => "file not found: " ++ path
  | .unreadable reason => "failed to read file (" ++ reason ++ ")"

def message (e : ConfigError) : String := "Invalid configuration: " ++ e.reason

end ConfigError

namespace Config

/-- A configuration with one entry of a document taken over. -/
def set (c : Config) (key : String) (value : Datum) : Except ConfigError Config :=
  match key, value with
  | "maxCallDepth", .number x =>
    if (positive? x).isSome then .ok { c with maxCallDepth := x } else .error .callDepth
  | "maxCallDepth", _ => .error .callDepth
  | "natives", .bool b => .ok { c with natives := b }
  | "natives", _ => .error (.notBool key)
  | "prompt", .string s => .ok { c with prompt := Text.toUnits s }
  | "prompt", .units us => .ok { c with prompt := us }
  | "prompt", _ => .error .promptNotString
  | "echo", .bool b => .ok { c with echo := b }
  | "echo", _ => .error (.notBool key)
  | _, _ => .error (.unknownKey key)

/-- A configuration with entries of a document taken over one after the other. -/
def setAll (c : Config) : List (String × Datum) → Except ConfigError Config
  | [] => .ok c
  | (key, value) :: entries =>
    match c.set key value with
    | .ok c => c.setAll entries
    | .error e => .error e

/-- The configuration that a document gives: its entries replace what is standard. -/
def ofDatum : Datum → Except ConfigError Config
  | .null | .absent => .ok standard
  | .mapping entries => standard.setAll entries
  | _ => .error .notMapping

/-- The sessions that a configuration asks for. -/
def options (c : Config) (host : Host) : Options := ⟨some c.maxCallDepth, c.natives, c.echo, host⟩

end Config

end Lox
