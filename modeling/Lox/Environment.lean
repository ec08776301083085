import Lox.Memory

/-!
# Environments

What a piece of program sees is the chain of scopes around it. A name is used in one of two ways: it is
searched along the chain, from the inside, or it is looked for in the scope at a depth that is known
beforehand. A use that fails says why and leaves the memory as it is.

## Contents
- `Access`: what is done with the memory in one go.
- `Chain.get`, `Chain.assign`: names that are searched.
- `Chain.getAt`, `Chain.assignAt`: names at a depth.
-/

namespace Lox

/-- What is done with the memory in one go; it may fail. -/
abbrev Access := EStateM Failure Memory

namespace Chain

/-- The value of a name in the innermost scope that binds it. The place of the program is told when no
scope does. -/
def get (chain : Chain) (name : String) (location : Option Location) : Access Value := fun m =>
  match m.get? name chain with
  | some value => .ok value m
  | none => .error (.runtime ⟨.undefinedVariable name, location⟩) m

/-- Binds a name again in the innermost scope that binds it. -/
def assign (chain : Chain) (name : String) (value : Value) (location : Option Location) :
    Access Unit := fun m =>
  match m.assign? name value chain with
  | some m' => .ok () m'
  | none => .error (.runtime ⟨.undefinedVariable name, location⟩) m

/-- The value of a name in the scope at a depth. That the scope is there and binds the name is for
resolution to ensure. -/
def getAt (chain : Chain) (depth : Nat) (name : String) : Access Value := fun m =>
  match m.getAt chain depth name with
  | .ok value => .ok value m
  | .error d => .error (.internal ⟨d, none⟩) m

/-- Binds a name again in the scope at a depth. -/
def assignAt (chain : Chain) (depth : Nat) (name : String) (value : Value) : Access Unit := fun m =>
  match m.assignAt chain depth name value with
  | .ok m' => .ok () m'
  | .error d => .error (.internal ⟨d, none⟩) m

end Chain

end Lox
