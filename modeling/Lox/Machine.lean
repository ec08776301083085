import Lox.Memory
import Lox.Host

/-!
# The machine

Evaluation changes a machine: its memory, the chain of scopes that the running piece of program
sees, the number of calls in progress, and the record of events. A computation that fails leaves
the machine as it was at the failure, apart from what the constructs around it put back.

## Contents
- `Machine`, `Stop`, `Eval`: machines, why evaluation stops, and computations.
- `Setting`: what stays the same during a run.
- `raise`, `raiseAt`, `defect`: failures.
- `within`: a piece of program that runs in other scopes.
- `inCall`: one level of calls.
- `print`, `exit`: events.
-/

namespace Lox

/-- The state of evaluation. -/
structure Machine where
  memory : Memory
  /-- The scopes that the running piece of program sees. -/
  chain : Chain
  /-- How many calls are in progress. -/
  callDepth : Nat
  /-- What has happened, in order. -/
  events : Array Event
  /-- How many requests the host has answered: readings of the clock, random numbers, and calls of
  its functions. -/
  draws : Nat

/-- The number of the global scope. -/
def globalScope : Nat := 0

/-- The chain that holds the global scope alone. -/
def globalChain : Chain := [globalScope]

/-- What stays the same during a run. -/
structure Setting where
  host : Host
  /-- How many calls may be in progress at once. -/
  maxCallDepth : Nat

/-- Why evaluation stops. -/
inductive Stop
  | failure (f : Failure)
  /-- The bound on the recursion of the evaluator was reached. -/
  | outOfFuel

/-- A computation that changes a machine and may stop. -/
abbrev Eval := EStateM Stop Machine

namespace Eval

/-! ## Failures -/

/-- Fails. -/
def raise {α : Type} (f : Failure) : Eval α := fun s => .error (.failure f) s

/-- Fails with a runtime error at a place of the program. -/
def raiseAt {α : Type} (location : Location) (cause : RuntimeError.Cause) : Eval α :=
  raise (.runtime ⟨cause, some location⟩)

/-- The result of an operation on values, or its runtime error at a place of the program. -/
def liftAt {α : Type} (location : Location) (result : Except RuntimeError.Cause α) : Eval α :=
  match result with
  | .ok a => pure a
  | .error cause => raiseAt location cause

/-- Fails because a rule does not hold. -/
def defect {α : Type} (d : Defect) (location : Option Location) : Eval α :=
  raise (.internal ⟨d, location⟩)

/-! ## Memory -/

/-- Changes the memory. -/
def modifyMemory (f : Memory → Memory) : Eval Unit := fun s =>
  .ok () { s with memory := f s.memory }

/-- Takes something new from the memory. -/
def take {α : Type} (f : Memory → α × Memory) : Eval α := fun s =>
  let (a, memory) := f s.memory
  .ok a { s with memory }

/-- The scopes that the running piece of program sees. -/
def chain : Eval Chain := fun s => .ok s.chain s

/-- Binds a name in the innermost scope. -/
def define (name : String) (value : Value) : Eval Unit := fun s =>
  .ok () { s with memory := s.memory.define s.chain name value }

/-- The value of a use of a name: at its depth, or among the globals when it has none. -/
def lookUp (name : String) (depth : Option Nat) (location : Location) : Eval Value := fun s =>
  match depth with
  | none =>
    match s.memory.get? name globalChain with
    | some value => .ok value s
    | none => raiseAt location (.undefinedVariable name) s
  | some depth =>
    match s.memory.getAt s.chain depth name with
    | .ok value => .ok value s
    | .error d => defect d none s

/-- Binds a name again in the scope with a number. -/
def bindIn (i : Nat) (name : String) (value : Value) : Eval Unit :=
  modifyMemory fun m => m.bind i name value

/-- Assigns to a use of a name: at its depth, or among the globals when it has none. The scope is
found first and changed then. -/
def assign (name : String) (depth : Option Nat) (value : Value) (location : Location) :
    Eval Unit := fun s =>
  match depth with
  | none =>
    match s.memory.owner? name globalChain with
    | some i => bindIn i name value s
    | none => raiseAt location (.undefinedVariable name) s
  | some depth =>
    match s.memory.ownerAt s.chain depth name with
    | .ok i => bindIn i name value s
    | .error d => defect d none s

/-! ## Scopes and calls -/

/-- Runs a computation that sees the scopes of `chain`. The machine sees its own scopes again
afterwards, however the computation ends. -/
def within {α : Type} (chain : Chain) (body : Eval α) : Eval α := fun s =>
  match body { s with chain } with
  | .ok a s' => .ok a { s' with chain := s.chain }
  | .error e s' => .error e { s' with chain := s.chain }

end Eval

/-- A host without stack inside a call is a stack overflow of that call. -/
def Stop.inCallAt (location : Location) : Stop → Stop
  | .failure .stackExhausted => .failure (.runtime ⟨.stackOverflow, some location⟩)
  | stop => stop

namespace Eval

/-- Runs a computation one level of calls deeper, for the call at a place of the program. The level
is given back however the computation ends. -/
def inCall {α : Type} (maxCallDepth : Nat) (location : Location) (body : Eval α) : Eval α :=
  fun s =>
    if maxCallDepth ≤ s.callDepth then raiseAt location .stackOverflow s
    else
      match body { s with callDepth := s.callDepth + 1 } with
      | .ok a s' => .ok a { s' with callDepth := s'.callDepth - 1 }
      | .error e s' => .error (e.inCallAt location) { s' with callDepth := s'.callDepth - 1 }

/-! ## Events -/

/-- Prints a text. -/
def print (host : Host) (text : String) : Eval Unit := fun s =>
  match host.onPrint s.events text with
  | none => .ok () { s with events := s.events.push (.print text) }
  | some f => .error (.failure f) s

/-- Prints texts one after the other. -/
def printAll (host : Host) : List String → Eval Unit
  | [] => pure ()
  | text :: texts => do
    print host text
    printAll host texts

/-- Asks for the end of the process. The request is recorded also when it is granted. -/
def exit (host : Host) (code : Float) : Eval Unit := fun s =>
  let answer := host.onExit s.events code
  let s := { s with events := s.events.push (.exit code) }
  match answer with
  | none => .ok () s
  | some f => .error (.failure f) s

/-- The number of the next request to the host. -/
def draw : Eval Nat := fun s => .ok s.draws { s with draws := s.draws + 1 }

end Eval

end Lox
