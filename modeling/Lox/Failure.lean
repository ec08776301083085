import Lox.Location

/-!
# Failures

What can end a run before its program does.

## Contents
- `RuntimeError`: the program asked for something that cannot be done.
- `InternalError`: a rule that resolution should have ensured does not hold.
- `Failure`: these, and what comes from the host.
-/

namespace Lox

/-- What a program asked for that cannot be done. -/
inductive RuntimeError.Cause
  | undefinedVariable (name : String)
  | undefinedProperty (name : String)
  | operandNotNumber
  | operandsNotNumbers
  | operandsNotAddable
  | notCallable
  | wrongArity (expected actual : Nat)
  | propertyOfNonInstance
  | fieldOfNonInstance
  | superclassNotClass
  | stackOverflow
  /-- The native function `name` does not accept its arguments. -/
  | rejectedArguments (name reason : String)
deriving DecidableEq, Repr

/-- A runtime error, with the place of the program that caused it if there is one. -/
structure RuntimeError where
  cause : RuntimeError.Cause
  location : Option Location
deriving DecidableEq, Repr

/-- Which rule does not hold. -/
inductive Defect
  /-- A depth exceeds the chain of scopes. -/
  | chainTooShort (depth : Nat)
  /-- The scope at a depth does not bind the name. -/
  | nameMissing (name : String) (depth : Nat)
  /-- `super` has no depth, or one that leaves no room for `this`. -/
  | unresolvedSuper
  /-- The scopes of `super` and `this` hold something else than a class and an instance. -/
  | brokenSuper
  /-- A jump, named by its keyword, left the body of a function. -/
  | escapedBody (jump function : String)
  /-- A jump left the program. -/
  | escapedTopLevel (jump : String)
deriving DecidableEq, Repr

/-- A broken rule of the interpreter. -/
structure InternalError where
  defect : Defect
  location : Option Location
deriving DecidableEq, Repr

/-- What can end a run before its program does. -/
inductive Failure
  | runtime (e : RuntimeError)
  | internal (e : InternalError)
  /-- The host has no stack left. -/
  | stackExhausted
  /-- The host failed for a reason of its own. -/
  | host (message : String)
  /-- The host ended the process. -/
  | exited (code : Float)

end Lox
