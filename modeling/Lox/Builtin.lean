import Lox.Machine
import Lox.Decimal.Rounding
import Lox.Text.Unit

/-!
# Built-in functions

The functions that are defined from the start, unless a session is made without them.

## Contents
- `Builtin.name`, `Builtin.arity`, `Builtin.description`: what is known about each.
- `Builtin.call`: what each one does.
-/

namespace Lox

namespace Builtin

/-- All built-in functions, in the order of their definition. -/
def all : List Builtin := [.clock, .type, .round, .rand, .randint, .help, .exit, .quit, .dir]

def name : Builtin → String
  | .clock => "clock"
  | .type => "type"
  | .round => "round"
  | .rand => "rand"
  | .randint => "randint"
  | .help => "help"
  | .exit => "exit"
  | .quit => "quit"
  | .dir => "dir"

def arity : Builtin → Nat
  | .clock | .rand | .quit | .dir => 0
  | .type | .help | .exit => 1
  | .round | .randint => 2

def description : Builtin → String
  | .clock => "Returns the amount of time elapsed since the Unix epoch."
  | .type => "Returns the type name of the given value."
  | .round => "Rounds a number to a given precision in decimal digits."
  | .rand => "Returns a number between 0 (inclusive) and 1 (exclusive)."
  | .randint => "Returns an integer between the two provided bounds, inclusive."
  | .help => "Prints the documentation of the given value."
  | .exit => "Terminates the current process with the specified exit code."
  | .quit => "Terminates the current process with an exit code of 0."
  | .dir => "Prints every name defined in the global scope."

/-- A built-in function as a value. -/
def native (b : Builtin) : Native := ⟨b.name, b.arity, b.description, .builtin b⟩

/-! ## Functions of their arguments -/

/-- A number rounded to a number of digits after the point. -/
def rounded (x digits : Value) : Except String Float :=
  match x, digits with
  | .number x, .number digits =>
    if !Decimal.isIntegral digits then .error "expected a number and an integer precision"
    else
      match Decimal.toNat? digits with
      | some places => .ok (Decimal.roundTo x places)
      | none => .error "precision must be a non-negative integer"
  | _, _ => .error "expected a number and an integer precision"

/-- The bounds of a random integer. -/
def bounds (low high : Value) : Except String (Float × Float) :=
  match low, high with
  | .number low, .number high =>
    if !(Decimal.isIntegral low && Decimal.isIntegral high) then .error "expected two integers"
    else if low > high then .error "lower bound must not exceed upper bound"
    else .ok (low, high)
  | _, _ => .error "expected two integers"

/-- The code of a request to exit. -/
def exitCode (code : Value) : Except String Float :=
  match code with
  | .number x =>
    if Decimal.isIntegral x then .ok x else .error "expected an integer exit code"
  | _ => .error "expected an integer exit code"

/-- What `help` shows for a value. -/
def helpText (v : Value) : String :=
  match v.callable? with
  | some c => c.name ++ "\n\t" ++ c.description
  | none => noDescription

/-! ## Calls -/

/-- The result of a function of its arguments; a reason to reject them becomes a runtime error. -/
def checked {α : Type} (b : Builtin) (location : Location) (result : Except String α) : Eval α :=
  Eval.liftAt location (result.mapError (.rejectedArguments b.name ·))

/-- Calls a built-in function. A missing argument is `nil`. -/
def call (host : Host) (b : Builtin) (args : List Value) (location : Location) : Eval Value :=
  let first := args.headD .nil
  let second := (args.drop 1).headD .nil
  match b with
  | .clock => do
    let n ← Eval.draw
    pure (.number (host.clock n))
  | .type => pure (.string first.typeName)
  | .round => do
    let x ← checked b location (rounded first second)
    pure (.number x)
  | .rand => do
    let n ← Eval.draw
    pure (.number (host.random n))
  | .randint => do
    let (low, high) ← checked b location (bounds first second)
    let n ← Eval.draw
    pure (.number (low + (host.random n * (high - low + 1)).floor))
  | .help => do
    Eval.print host (helpText first)
    pure .nil
  | .exit => do
    let code ← checked b location (exitCode first)
    Eval.exit host code
    pure .nil
  | .quit => do
    Eval.exit host 0
    pure .nil
  | .dir => do
    let s ← get
    Eval.printAll host (Text.sortByUnits (s.memory.scope globalScope).names)
    pure .nil

end Builtin

end Lox
