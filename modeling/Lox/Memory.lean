import Lox.Value
import Lox.Failure

/-!
# Memory

The memory of a session holds the bindings of every scope and the fields of every instance that were
ever made. A chain of scope numbers selects the scopes that a piece of program sees; chains share
their outer scopes.

## Contents
- `Memory`: scopes, instances, and the number of the next object.
- `Memory.newScope`, `Memory.newInstance`: new places.
- `Memory.define`, `Memory.owner?`, `Memory.get?`, `Memory.assign?`: access by name, along a chain.
- `Chain.ancestor?`, `Memory.ownerAt`, `Memory.getAt`, `Memory.assignAt`: access by depth.
-/

namespace Lox

/-- The bindings of all scopes, the fields of all instances, and the number of the next object. -/
structure Memory where
  scopes : Array (Table Value)
  fields : Array (Table Value)
  nextId : Nat

namespace Memory

/-- A memory without scopes and instances. -/
def empty : Memory := ⟨#[], #[], 0⟩

instance : Inhabited Memory := ⟨empty⟩

/-- The bindings of a scope. -/
def scope (m : Memory) (i : Nat) : Table Value := m.scopes.getD i Table.empty

/-- The fields of an instance. -/
def fieldsOf (m : Memory) (i : Instance) : Table Value := m.fields.getD i.id Table.empty

/-- A new scope with the given bindings, and its number. -/
def newScope (m : Memory) (bindings : Table Value) : Nat × Memory :=
  (m.scopes.size, { m with scopes := m.scopes.push bindings })

/-- A new instance without fields. -/
def newInstance (m : Memory) (c : Class) : Instance × Memory :=
  (⟨m.fields.size, c⟩, { m with fields := m.fields.push Table.empty })

/-- The number of a new object. -/
def newId (m : Memory) : Nat × Memory := (m.nextId, { m with nextId := m.nextId + 1 })

/-- Sets a field of an instance. -/
def setField (m : Memory) (i : Instance) (name : String) (value : Value) : Memory :=
  { m with fields := m.fields.modify i.id (·.put name value) }

/-- Binds a name in the scope with a number. -/
def bind (m : Memory) (i : Nat) (name : String) (value : Value) : Memory :=
  { m with scopes := m.scopes.modify i (·.put name value) }

/-! ## Access by name -/

/-- Binds a name in the innermost scope of a chain, also when it is bound there already. -/
def define (m : Memory) (chain : Chain) (name : String) (value : Value) : Memory :=
  match chain with
  | [] => m
  | i :: _ => m.bind i name value

/-- The innermost scope of a chain that binds a name. -/
def owner? (m : Memory) (name : String) : Chain → Option Nat
  | [] => none
  | i :: outer => if (m.scope i).has name then some i else m.owner? name outer

/-- The value of a name in the innermost scope of a chain that binds it. -/
def get? (m : Memory) (name : String) (chain : Chain) : Option Value :=
  (m.owner? name chain).bind fun i => (m.scope i).get? name

/-- Binds a name again in the innermost scope of a chain that binds it. -/
def assign? (m : Memory) (name : String) (value : Value) (chain : Chain) : Option Memory :=
  (m.owner? name chain).map fun i => m.bind i name value

end Memory

/-! ## Access by depth -/

/-- The chain without its `depth` innermost scopes, unless nothing is left. -/
def Chain.ancestor? : Chain → Nat → Option Chain
  | [], _ => none
  | chain, 0 => some chain
  | _ :: outer, depth + 1 => Chain.ancestor? outer depth

namespace Memory

/-- The scope at a depth, which has to bind the name. -/
def ownerAt (m : Memory) (chain : Chain) (depth : Nat) (name : String) : Except Defect Nat :=
  match Chain.ancestor? chain depth with
  | some (i :: _) => if (m.scope i).has name then .ok i else .error (.nameMissing name depth)
  | _ => .error (.chainTooShort depth)

/-- The value of a name in the scope at a depth. -/
def getAt (m : Memory) (chain : Chain) (depth : Nat) (name : String) : Except Defect Value :=
  match Chain.ancestor? chain depth with
  | some (i :: _) =>
    match (m.scope i).get? name with
    | some value => .ok value
    | none => .error (.nameMissing name depth)
  | _ => .error (.chainTooShort depth)

/-- Binds a name again in the scope at a depth. -/
def assignAt (m : Memory) (chain : Chain) (depth : Nat) (name : String) (value : Value) :
    Except Defect Memory :=
  (m.ownerAt chain depth name).map fun i => m.bind i name value

end Memory

end Lox
