import Lox.Config
import Lox.Files
import Lox.Yaml.Document

/-!
# Configuration files

A configuration is a document in a file. The file that the user names has to be there; the usual one
need not.

## Contents
- `Config.ofText`: the configuration that a text gives.
- `Config.load`: the configuration that a file gives.
-/

namespace Lox.Config

/-- The configuration that a text gives. -/
def ofText (text : String) : Except ConfigError Config :=
  match Yaml.read? text with
  | some document => ofDatum document
  | none => .error .notYaml

/-- The configuration in the file of the given path, or in the usual file when no path is given. -/
def load (files : Files) (path : Option String) : Except ConfigError Config :=
  match files (path.getD fileName), path with
  | .ok text, _ => ofText text
  | .error .isDirectory, _ =>
    .error (.unreadable (FileError.isDirectory.outer (path.getD fileName)).message)
  | .error _, some path => .error (.fileNotFound path)
  | .error _, none => .ok standard

end Lox.Config
