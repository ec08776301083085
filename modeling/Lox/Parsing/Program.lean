import Lox.Parsing.Statement

/-!
# Programs

A source text is scanned and parsed as a whole, either up to the first error or with every error
recorded.

## Contents
- `SourceError`: what can be wrong with a source text.
- `Program.parse`: the program of a source text, or the first error.
- `Program.recover`: the program of what could be read, and all errors.
-/

namespace Lox

/-- What can be wrong with a source text before its names are resolved. -/
inductive SourceError
  | lexical (e : LexicalError)
  | syntactic (e : SyntaxError)
deriving DecidableEq, Repr

namespace Parsing

/-- A bound on the recursion for `n` tokens: between two tokens a declaration, a statement, an
assignment and a unary expression can open. -/
def recursionBound (n : Nat) : Nat := 4 * n + 4

/-- Declarations up to the end of the source. -/
def program (mode : Mode) : Parser Program := do
  let start ← here
  let n ← remaining
  let decls ← declarationsFrom (declaration mode (recursionBound n)) (·.isNone) n
  pure ⟨decls, start, ← here⟩

end Parsing

open Parsing

/-- The program of a source text, or its first error: lexical errors come first. -/
def Program.parse (source : List Char) : Except SourceError Program :=
  match scan? source with
  | .error e => .error (.lexical e)
  | .ok s =>
    match program .strict (Cursor.ofScan s) with
    | .ok p _ => .ok p
    | .error e _ => .error (.syntactic e)

/-- What can be made of a source text that may have errors. -/
structure Recovered where
  /-- The declarations that could be read. -/
  program : Program
  /-- Lexical errors in the order of the source, then syntax errors in the order of discovery. -/
  errors : List SourceError

/-- Whether there was no error. -/
def Recovered.success (r : Recovered) : Bool := r.errors.isEmpty

/-- The program of what could be read, and all errors. When recovering, every declaration returns,
so the second case does not arise. -/
def Program.recover (source : List Char) : Recovered :=
  let s := scan source
  match program .recovering (Cursor.ofScan s) with
  | .ok p c => ⟨p, s.errors.map .lexical ++ c.errors.map .syntactic⟩
  | .error e c =>
    ⟨⟨[], s.finish, s.finish⟩, s.errors.map .lexical ++ (c.errors ++ [e]).map .syntactic⟩

end Lox
