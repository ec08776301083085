import Lox.Diagnostic.Catalogue
import Lox.Diagnostic.Template
import Lox.Location

/-!
# Diagnostics

A diagnostic is an error with everything that can be told about it: where it comes from, its
definition, the context that fills its message, and its place.

## Contents
- `Diagnostic`, `Diagnostic.message`, `Diagnostic.display`: a diagnostic and its texts.
- `Diagnostic.make`: a diagnostic for an identifier, which has to fit its origin.
- `OuterError`, `OuterError.display`: errors from outside the language.
-/

namespace Lox

/-- What part of the language an error comes from. -/
inductive Origin
  | general
  | lexer
  /-- With the lexeme at which the error was noticed; `none` at the end of the source. -/
  | parse (found : Option String)
  | static
  | runtime
  | internal
deriving DecidableEq, Repr

/-- The name of the errors of an origin. -/
def Origin.name : Origin → String
  | .general => "LoxError"
  | .lexer => "LexerError"
  | .parse _ => "ParseError"
  | .static => "ResolveError"
  | .runtime => "RuntimeError"
  | .internal => "InternalError"

/-- An error with everything that can be told about it. -/
structure Diagnostic where
  origin : Origin
  definition : Definition
  context : Table Datum
  location : Option Location

namespace Diagnostic

/-- The message: the template of the definition, filled in from the context. Diagnostics are made
only from contexts that can fill it in. -/
def message (d : Diagnostic) : String :=
  match Template.render d.definition.template d.context with
  | .ok text => text
  | .error _ => d.definition.template

/-- The line of the source; zero when it is not known. -/
def line (d : Diagnostic) : Nat := (d.location.map (·.line)).getD 0

/-- The text in front of the messages of errors that are known from their line. -/
def lineMark (d : Diagnostic) : String := "[line " ++ toString d.line ++ "]"

/-- What is shown to the user. -/
def display (d : Diagnostic) : String :=
  match d.origin with
  | .parse none => d.lineMark ++ " Error at end: " ++ d.message
  | .parse (some found) => d.lineMark ++ " Error at '" ++ found ++ "': " ++ d.message
  | .runtime =>
    match d.location with
    | some _ => d.message ++ "\n" ++ d.lineMark
    | none => d.message
  | _ => d.lineMark ++ " Error: " ++ d.message

end Diagnostic

/-- Why there is no diagnostic for an identifier. -/
inductive DiagnosticError
  | unknown (id : String)
  | unexpected (id category : String)
  /-- The context cannot fill in the message. -/
  | context (e : Datum.TextError)
deriving DecidableEq, Repr

def DiagnosticError.message : DiagnosticError → String
  | .unknown id => "Unknown error ID: " ++ id
  | .unexpected id category => "Expected " ++ category ++ " error ID, got: " ++ id
  | .context e => e.message

/-- A diagnostic for an identifier, which has to be known and to belong to the category, with a
context that fills in its message. -/
def Diagnostic.make (origin : Origin) (id category : String) (context : Table Datum)
    (location : Option Location) : Except DiagnosticError Diagnostic :=
  match Catalogue.standard.get? id with
  | none => .error (.unknown id)
  | some definition =>
    if definition.category = category then
      match Template.render definition.template context with
      | .ok _ => .ok ⟨origin, definition, context, location⟩
      | .error e => .error (.context e)
    else .error (.unexpected id category)

/-- An error from outside the language: a message, and for failed file operations a code and a
path. -/
structure OuterError where
  message : String
  code : Option String
  path : Option String
deriving DecidableEq, Repr

/-- What is shown to the user. A missing file is told by its path. -/
def OuterError.display (e : OuterError) : String :=
  match e.code, e.path with
  | some "ENOENT", some path => "File not found: " ++ path
  | _, _ => e.message

end Lox
