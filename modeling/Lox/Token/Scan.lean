import Lox.Token.Piece

/-!
# Scanning

The tokens and the lexical errors of a source text are read off its pieces, each with the place at
which it stands.

## Contents
- `LexicalError`: what is wrong with a stretch of the source, and where.
- `Piece.locate`: pieces with their places.
- `Scan`, `scan`: tokens, end and errors of a source text.
- `tokens`: the tokens of a text without lexical errors.
-/

namespace Lox

/-- What is wrong with a stretch of the source. -/
inductive LexicalError.Cause
  /-- A unit that begins no token; a character outside the basic plane is reported unit by unit. -/
  | unexpected (unit : Nat)
  | unterminated
  | badNumber (lexeme : String)
deriving DecidableEq, Repr

/-- A stretch of the source that is no token. -/
structure LexicalError where
  cause : LexicalError.Cause
  location : Location
deriving DecidableEq, Repr

namespace Piece

/-- Pieces with the places at which they stand, the first one at `l`. -/
def locate (l : Location) : List Piece → List (Location × Piece)
  | [] => []
  | p :: ps => (l, p) :: locate (l.after p.text) ps

/-- The token that a piece at `l` is. -/
def token? (l : Location) (p : Piece) : Option Token :=
  match p.shape with
  | .token kind => some ⟨kind, String.ofList p.text, ⟨l, l.after p.text⟩⟩
  | _ => none

/-- One error for each unit, the first one at `l`. -/
def unexpectedUnits (l : Location) : List Nat → List LexicalError
  | [] => []
  | u :: us =>
    ⟨.unexpected u, l⟩ :: unexpectedUnits ⟨l.line, l.column + 1, l.offset + 1⟩ us

/-- The errors that a piece at `l` gives rise to. -/
def errors (l : Location) (p : Piece) : List LexicalError :=
  match p.shape with
  | .flaw .unexpected => unexpectedUnits l (p.text.flatMap Text.units)
  | .flaw .unterminated => [⟨.unterminated, l⟩]
  | .flaw .badNumber => [⟨.badNumber (String.ofList p.text), l⟩]
  | _ => []

end Piece

/-- What scanning finds in a source text. -/
structure Scan where
  /-- The tokens, in order. -/
  tokens : List Token
  /-- The place behind the text. -/
  finish : Location
  /-- The lexical errors, in order. -/
  errors : List LexicalError

/-- The tokens and the lexical errors of a source text. -/
def scan (source : List Char) : Scan :=
  let located := Piece.locate .start (Piece.pieces source)
  { tokens := located.filterMap fun (l, p) => p.token? l
    finish := Location.start.after source
    errors := located.flatMap fun (l, p) => p.errors l }

/-- The scan of a source text, unless there is a lexical error; then the first one. -/
def scan? (source : List Char) : Except LexicalError Scan :=
  match (scan source).errors with
  | [] => .ok (scan source)
  | e :: _ => .error e

end Lox
