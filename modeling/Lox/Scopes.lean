import Lox.Table

/-!
# Static scopes

While the uses of names are resolved, the local scopes that are open form a stack. A scope tells for
each of its names whether the declaration is complete: the name of a variable is declared before its
initializer and defined after it. Globals are in no scope.

## Contents
- `Scopes`: the stack, innermost scope first.
- `Scopes.declare`, `Scopes.define`: declarations in the innermost scope.
- `Scopes.distance?`: how many scopes away a name is declared.
-/

namespace Lox

/-- Names with a mark: whether their declaration is complete. -/
abbrev Scope := Table Bool

/-- The open local scopes, innermost first. -/
abbrev Scopes := List Scope

namespace Scopes

/-- Marks a name in the innermost scope, if there is one. -/
def mark (scopes : Scopes) (name : String) (complete : Bool) : Scopes :=
  match scopes with
  | [] => []
  | scope :: outer => scope.put name complete :: outer

/-- Declares a name whose definition is still to come. -/
def declare (scopes : Scopes) (name : String) : Scopes := scopes.mark name false

/-- Completes the declaration of a name. -/
def define (scopes : Scopes) (name : String) : Scopes := scopes.mark name true

/-- Opens a scope. -/
def enter (scopes : Scopes) : Scopes := Table.empty :: scopes

/-- Opens a scope that holds one complete name. -/
def enterWith (scopes : Scopes) (name : String) : Scopes := scopes.enter.define name

/-- Whether the innermost scope declares a name. -/
def declaresHere (scopes : Scopes) (name : String) : Bool :=
  match scopes with
  | [] => false
  | scope :: _ => scope.has name

/-- Whether the innermost scope declares a name whose declaration is not complete. -/
def isIncomplete (scopes : Scopes) (name : String) : Bool :=
  match scopes with
  | [] => false
  | scope :: _ => scope.get? name == some false

/-- The number of scopes between here and the innermost one that declares a name. -/
def distance? (scopes : Scopes) (name : String) : Option Nat :=
  match scopes with
  | [] => none
  | scope :: outer => if scope.has name then some 0 else (distance? outer name).map (· + 1)

@[simp] theorem length_mark (scopes : Scopes) (name : String) (complete : Bool) :
    (scopes.mark name complete).length = scopes.length := by
  cases scopes <;> rfl

@[simp] theorem length_declare (scopes : Scopes) (name : String) :
    (scopes.declare name).length = scopes.length := length_mark scopes name false

@[simp] theorem length_define (scopes : Scopes) (name : String) :
    (scopes.define name).length = scopes.length := length_mark scopes name true

end Scopes

end Lox
