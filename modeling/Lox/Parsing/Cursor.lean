import Lox.Token.Scan

/-!
# Reading tokens

A parser moves a cursor over a list of tokens. When it fails, the cursor stays where the failure was
noticed, so that a caller may go on from there.

## Contents
- `SyntaxError`: what is wrong with a list of tokens, and where.
- `Cursor`: the tokens already passed and still to come, the open nesting levels, and the errors
  recorded so far.
- `Parser`: a computation over a cursor.
- `accept`, `expect`, `nested`: steps that all productions share.
- `Mode`, `report`, `recovered`: what becomes of an error.
-/

namespace Lox

/-- What is wrong with a list of tokens. -/
inductive SyntaxError.Cause
  /-- No expression begins here. -/
  | noExpression
  /-- Something else should stand here; `what` names it with its context. -/
  | expected (what : String)
  /-- The left side of an assignment is neither a variable nor a property. -/
  | badTarget
  /-- A list of parameters or arguments, named by `what`, is too long. -/
  | tooMany (what : String)
  /-- Statements and expressions are nested too deeply. -/
  | tooNested
deriving DecidableEq, Repr

/-- An error at a token, or at the end of the source when `found` is `none`. -/
structure SyntaxError where
  cause : SyntaxError.Cause
  location : Location
  found : Option String
deriving DecidableEq, Repr

/-- The error at a given token. -/
def Token.error (t : Token) (cause : SyntaxError.Cause) : SyntaxError :=
  ⟨cause, t.span.start, some t.lexeme⟩

namespace Parsing

/-- How many statements, assignments and unary expressions may be open at once. -/
def maxNesting : Nat := 200

/-- How many parameters a function, and how many arguments a call, may have. -/
def maxArity : Nat := 255

/-- A place in a list of tokens. -/
structure Cursor where
  /-- The token passed last. -/
  previous : Option Token
  /-- The tokens still to come. -/
  rest : List Token
  /-- The place behind the source text. -/
  finish : Location
  /-- The nesting levels that are open. -/
  depth : Nat
  /-- The errors recorded so far, in the order of their discovery. -/
  errors : List SyntaxError

namespace Cursor

/-- In front of all tokens of a scan. -/
def ofScan (s : Scan) : Cursor := ⟨none, s.tokens, s.finish, 0, []⟩

/-- The kind of the next token; `none` at the end. -/
def kind? (c : Cursor) : Option Token.Kind := c.rest.head?.map (·.kind)

/-- Where the next token begins. -/
def here (c : Cursor) : Location :=
  match c.rest with
  | t :: _ => t.span.start
  | [] => c.finish

/-- Where the token passed last ends; before any token, where the next one ends. -/
def reached (c : Cursor) : Location :=
  match c.previous, c.rest with
  | some t, _ => t.span.stop
  | none, t :: _ => t.span.stop
  | none, [] => c.finish

/-- Passes the next token. -/
def advance (c : Cursor) : Cursor :=
  match c.rest with
  | t :: ts => { c with previous := some t, rest := ts }
  | [] => c

/-- The error at the next token. -/
def error (c : Cursor) (cause : SyntaxError.Cause) : SyntaxError :=
  match c.rest with
  | t :: _ => t.error cause
  | [] => ⟨cause, c.finish, none⟩

/-- Records an error. -/
def record (c : Cursor) (e : SyntaxError) : Cursor := { c with errors := c.errors ++ [e] }

end Cursor

/-- A computation that moves a cursor and may fail. -/
abbrev Parser := EStateM SyntaxError Cursor

/-- The kind of the next token. -/
def peek? : Parser (Option Token.Kind) := fun c => .ok c.kind? c

/-- Where the next token begins. -/
def here : Parser Location := fun c => .ok c.here c

/-- How many tokens are still to come. -/
def remaining : Parser Nat := fun c => .ok c.rest.length c

/-- Passes the next token. -/
def advance : Parser Unit := fun c => .ok () c.advance

/-- Fails at the next token. -/
def fail {α : Type} (cause : SyntaxError.Cause) : Parser α := fun c => .error (c.error cause) c

/-- The span from `start` to the end of the token passed last. -/
def spanFrom (start : Location) : Parser Span := fun c => .ok ⟨start, c.reached⟩ c

/-- Whether the next token is of the given kind. -/
def check (kind : Token.Kind) : Parser Bool := fun c => .ok (c.kind? == some kind) c

/-- Passes the next token if it is of the given kind, and tells whether it was. -/
def accept (kind : Token.Kind) : Parser Bool := fun c =>
  if c.kind? = some kind then .ok true c.advance else .ok false c

/-- Passes a token of the given kind; `what` names it in the error when there is none. -/
def expect (kind : Token.Kind) (what : String) : Parser Token := fun c =>
  match c.rest with
  | t :: _ => if t.kind = kind then .ok t c.advance else .error (c.error (.expected what)) c
  | [] => .error (c.error (.expected what)) c

/-- Runs `p` one nesting level deeper. The level is closed again however `p` ends. -/
def nested {α : Type} (p : Parser α) : Parser α := fun c =>
  if maxNesting ≤ c.depth then .error (c.error .tooNested) c
  else
    match p { c with depth := c.depth + 1 } with
    | .ok a c' => .ok a { c' with depth := c'.depth - 1 }
    | .error e c' => .error e { c' with depth := c'.depth - 1 }

/-! ## Errors -/

/-- What becomes of an error. -/
inductive Mode
  /-- The first error ends the parse. -/
  | strict
  /-- Errors are recorded, and the parse goes on. -/
  | recovering
deriving DecidableEq, Repr

/-- Reports an error after which the parse can go on as if nothing had happened. -/
def report (mode : Mode) (e : SyntaxError) : Parser Unit := fun c =>
  match mode with
  | .strict => .error e c
  | .recovering => .ok () (c.record e)

/-- Tokens that begin a statement or a declaration, whatever stands in front of them. -/
def startsStatement : Token.Kind → Bool
  | .class | .fun | .var | .for | .if | .while | .print | .return | .break | .continue => true
  | _ => false

/-- The token passed last and the tokens still to come, once the tokens of a broken statement are
skipped: up to and including a semicolon, or up to a token that begins a statement. -/
def skipStatement (previous : Option Token) : List Token → Option Token × List Token
  | [] => (previous, [])
  | t :: ts =>
    if previous.any (·.kind == .semicolon) || startsStatement t.kind then (previous, t :: ts)
    else skipStatement (some t) ts

/-- Goes to the next statement boundary. At least one token is passed, unless none is left. -/
def Cursor.synchronize (c : Cursor) : Cursor :=
  let c := c.advance
  let (previous, rest) := skipStatement c.previous c.rest
  { c with previous, rest }

/-- Runs `p`. When recovering, a failure is recorded, the cursor goes to the next statement
boundary, and there is no result. -/
def recovered {α : Type} (mode : Mode) (p : Parser α) : Parser (Option α) := fun c =>
  match p c with
  | .ok a c' => .ok (some a) c'
  | .error e c' =>
    match mode with
    | .strict => .error e c'
    | .recovering => .ok none (c'.record e).synchronize

end Parsing

end Lox
