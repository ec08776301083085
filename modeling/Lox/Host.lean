import Lox.Value
import Lox.Failure

/-!
# Hosts

A program meets its surroundings through a host: it prints, it asks for the end of the process, and
it calls functions that the host provides. What a host does may depend on everything that happened
before, and each step of it may fail.

## Contents
- `Event`: what a run shows to the outside.
- `Host.Call`, `Host.Reply`: the call of a host function and its answer.
- `HostFunction`: a function that a host provides.
- `Host`: all of it.
-/

namespace Lox

/-- What a run shows to the outside. -/
inductive Event
  | print (text : String)
  | exit (code : Float)

/-- The call of a host function. -/
structure Host.Call where
  args : List Value
  /-- Where the call stands in the program. -/
  location : Location
  /-- How many calls are in progress, this one included. -/
  callDepth : Nat
  /-- What has happened so far. -/
  history : Array Event
  /-- The number of the call among all requests to the host, so that a host may change its mind. -/
  turn : Nat

/-- The answer of a host function: texts to print, one after the other, and then a result. -/
structure Host.Reply where
  printed : List String
  result : Except Failure Value

/-- A function that a host provides. -/
structure HostFunction where
  /-- The number of arguments, as the host declares it. -/
  arity : Float
  description : Option String
  run : Host.Call → Host.Reply

/-- The surroundings of a program. -/
structure Host where
  /-- Its functions by name. -/
  functions : Table HostFunction
  /-- Told of a text to print; the answer is a failure, if it fails. -/
  onPrint : (history : Array Event) → (text : String) → Option Failure
  /-- Told of an exit code; the answer is a failure, if the program shall not go on. -/
  onExit : (history : Array Event) → (code : Float) → Option Failure
  /-- The readings of the clock, in seconds. -/
  clock : Nat → Float
  /-- Random numbers from zero to one, one excluded. -/
  random : Nat → Float

namespace Host

/-- A source of numbers that look random: the fractions of the multiples of the golden ratio. -/
def goldenFraction (n : Nat) : Float :=
  let unit := Nat.pow 10 10
  Decimal.nearest (n * 6180339887 % unit) unit

/-- A host without functions of its own that lets every program go on. -/
def plain : Host where
  functions := Table.empty
  onPrint _ _ := none
  onExit _ _ := none
  clock _ := 0
  random n := goldenFraction (n + 1)

/-- The answer of the host function with the given name. -/
def call (host : Host) (name : String) (c : Call) : Reply :=
  match host.functions.get? name with
  | some f => f.run c
  | none => ⟨[], .ok .nil⟩

end Host

end Lox
