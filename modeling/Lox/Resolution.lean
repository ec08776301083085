import Lox.Scopes
import Lox.Syntax

/-!
# Resolution of names

Before a program runs, every use of a local name is given the number of scopes between the use and
its declaration. On the way the static rules are checked: a program that breaks one of them is not
run. Checking goes on after an error.

Scopes are opened by blocks, by functions (one for parameters and body together), around the methods
of a class (for `this`), and around that for a class with a superclass (for `super`).

## Contents
- `StaticError`: the static rules and where they are broken.
- `Checked`: a result with the errors found on the way.
- `Surroundings`: what a piece of program stands in.
- `Expr.resolve`, `Stmt.resolve`, `Decl.resolve`: the walk.
- `Program.resolve`: a program with its depths, and its static errors.
-/

namespace Lox

/-- A broken static rule. -/
inductive StaticError.Cause
  /-- A local variable is read in its own initializer. -/
  | ownInitializer
  /-- A name is declared twice in one local scope. -/
  | alreadyDeclared (name : String)
  | returnOutsideFunction
  /-- An initializer returns a value. -/
  | returnFromInitializer
  /-- `break` or `continue`, as `keyword` tells, without a loop around it. -/
  | jumpOutsideLoop (keyword : String)
  | thisOutsideClass
  | superOutsideClass
  | superWithoutSuperclass
  | inheritsFromItself
deriving DecidableEq, Repr

/-- A broken static rule and where it is broken. -/
structure StaticError where
  cause : StaticError.Cause
  location : Location
deriving DecidableEq, Repr

/-! ## Results with errors -/

/-- A result with the static errors found on the way, in order. -/
structure Checked (α : Type) where
  value : α
  errors : List StaticError

namespace Checked

instance : Monad Checked where
  pure a := ⟨a, []⟩
  bind x f := ⟨(f x.value).value, x.errors ++ (f x.value).errors⟩

/-- Reports an error. -/
def report (span : Span) (cause : StaticError.Cause) : Checked Unit := ⟨(), [⟨cause, span.start⟩]⟩

/-- Reports an error when a condition holds. -/
def reportIf (condition : Bool) (span : Span) (cause : StaticError.Cause) : Checked Unit :=
  if condition then report span cause else pure ()

@[simp] theorem value_pure {α : Type} (a : α) : (pure a : Checked α).value = a := rfl

@[simp] theorem errors_pure {α : Type} (a : α) : (pure a : Checked α).errors = [] := rfl

@[simp] theorem value_bind {α β : Type} (x : Checked α) (f : α → Checked β) :
    (x >>= f).value = (f x.value).value := rfl

@[simp] theorem errors_bind {α β : Type} (x : Checked α) (f : α → Checked β) :
    (x >>= f).errors = x.errors ++ (f x.value).errors := rfl

end Checked

open Checked

/-! ## Surroundings -/

/-- The innermost function around a piece of program. -/
inductive FunctionKind
  | none
  | function
  | method
  | initializer
deriving DecidableEq, Repr

/-- The innermost class around a piece of program. -/
inductive ClassKind
  | none
  | base
  | derived
deriving DecidableEq, Repr

/-- What a piece of program stands in. -/
structure Surroundings where
  function : FunctionKind
  enclosingClass : ClassKind
  /-- Whether a loop of the same function is around it. -/
  inLoop : Bool
deriving DecidableEq, Repr

/-- Outside every function, class and loop. -/
def Surroundings.topLevel : Surroundings := ⟨.none, .none, false⟩

/-- Inside the body of a function. A loop around the function is not one around its body. -/
def Surroundings.inFunction (s : Surroundings) (kind : FunctionKind) : Surroundings :=
  { s with function := kind, inLoop := false }

/-- What kind of function a method is. -/
def methodKind (name : String) : FunctionKind :=
  if name = initializerName then .initializer else .method

/-! ## Expressions -/

/-- A use of a variable with its depth. -/
def NameUse.resolve (scopes : Scopes) (use : NameUse) : Checked NameUse := do
  reportIf (scopes.isIncomplete use.name) use.span .ownInitializer
  pure { use with depth := scopes.distance? use.name }

mutual

/-- An expression whose uses have their depths. -/
def Expr.resolve (kind : ClassKind) (scopes : Scopes) : Expr → Checked Expr
  | .literal value span => pure (.literal value span)
  | .grouping inner span => do
    let inner ← inner.resolve kind scopes
    pure (.grouping inner span)
  | .unary op operand span => do
    let operand ← operand.resolve kind scopes
    pure (.unary op operand span)
  | .binary op left right span => do
    let left ← left.resolve kind scopes
    let right ← right.resolve kind scopes
    pure (.binary op left right span)
  | .logical op left right span => do
    let left ← left.resolve kind scopes
    let right ← right.resolve kind scopes
    pure (.logical op left right span)
  | .variable use => do
    let use ← use.resolve scopes
    pure (.variable use)
  | .assign name _ value span => do
    let value ← value.resolve kind scopes
    pure (.assign name (scopes.distance? name) value span)
  | .call callee args span => do
    let callee ← callee.resolve kind scopes
    let args ← Expr.resolveAll kind scopes args
    pure (.call callee args span)
  | .get object name span => do
    let object ← object.resolve kind scopes
    pure (.get object name span)
  | .set object name value span => do
    let value ← value.resolve kind scopes
    let object ← object.resolve kind scopes
    pure (.set object name value span)
  | .this _ span =>
    match kind with
    | .none => do
      report span .thisOutsideClass
      pure (.this none span)
    | _ => pure (.this (scopes.distance? "this") span)
  | .super _ method span =>
    match kind with
    | .none => do
      report span .superOutsideClass
      pure (.super none method span)
    | .base => do
      report span .superWithoutSuperclass
      pure (.super none method span)
    | .derived => pure (.super (scopes.distance? "super") method span)

/-- Expressions, one after the other. -/
def Expr.resolveAll (kind : ClassKind) (scopes : Scopes) : List Expr → Checked (List Expr)
  | [] => pure []
  | e :: es => do
    let e ← e.resolve kind scopes
    let es ← Expr.resolveAll kind scopes es
    pure (e :: es)

end

/-- An expression that may be absent. -/
def Expr.resolveOption (kind : ClassKind) (scopes : Scopes) :
    Option Expr → Checked (Option Expr)
  | none => pure none
  | some e => do
    let e ← e.resolve kind scopes
    pure (some e)

/-! ## Statements and declarations -/

/-- The name that a declaration declares. -/
def Decl.name? : Decl → Option String
  | .var name _ _ => some name
  | .function decl => some decl.name
  | .class name _ _ _ => some name
  | .stmt _ => none

/-- The scopes behind a declaration. -/
def Scopes.behind (scopes : Scopes) (d : Decl) : Scopes :=
  match d.name? with
  | some name => scopes.define name
  | none => scopes

/-- A global is in no scope. -/
theorem Scopes.behind_nil (d : Decl) : Scopes.behind [] d = [] := by
  unfold Scopes.behind
  cases d.name? <;> rfl

/-- Reports a name that the innermost scope declares already. -/
def checkNew (scopes : Scopes) (name : String) (span : Span) : Checked Unit :=
  reportIf (scopes.declaresHere name) span (.alreadyDeclared name)

/-- The parameters of a function, in the scope of its body. -/
def Param.resolveAll (scopes : Scopes) : List Param → Checked Scopes
  | [] => pure scopes
  | p :: ps => do
    checkNew scopes p.name p.span
    Param.resolveAll (scopes.define p.name) ps

/-- The superclass of a class with the given name, seen from inside that class. -/
def resolveSuperclass (scopes : Scopes) (name : String) : Option NameUse → Checked (Option NameUse)
  | none => pure none
  | some use => do
    reportIf (use.name == name) use.span .inheritsFromItself
    let use ← use.resolve scopes
    pure (some use)

/-- The scopes around the methods of a class. -/
def Scopes.enterClass (scopes : Scopes) (derived : Bool) : Scopes :=
  (if derived then scopes.enterWith "super" else scopes).enterWith "this"

mutual

/-- A statement whose uses have their depths. -/
def Stmt.resolve (around : Surroundings) (scopes : Scopes) : Stmt → Checked Stmt
  | .expression value span => do
    let value ← value.resolve around.enclosingClass scopes
    pure (.expression value span)
  | .print value span => do
    let value ← value.resolve around.enclosingClass scopes
    pure (.print value span)
  | .block body span => do
    let body ← Decl.resolveAll around scopes.enter body
    pure (.block body span)
  | .ifThenElse condition thenBranch none span => do
    let condition ← condition.resolve around.enclosingClass scopes
    let thenBranch ← thenBranch.resolve around scopes
    pure (.ifThenElse condition thenBranch none span)
  | .ifThenElse condition thenBranch (some elseBranch) span => do
    let condition ← condition.resolve around.enclosingClass scopes
    let thenBranch ← thenBranch.resolve around scopes
    let elseBranch ← elseBranch.resolve around scopes
    pure (.ifThenElse condition thenBranch (some elseBranch) span)
  | .whileLoop condition body increment span => do
    let condition ← condition.resolve around.enclosingClass scopes
    let body ← body.resolve { around with inLoop := true } scopes
    let increment ← Expr.resolveOption around.enclosingClass scopes increment
    pure (.whileLoop condition body increment span)
  | .break span => do
    reportIf (!around.inLoop) span (.jumpOutsideLoop "break")
    pure (.break span)
  | .continue span => do
    reportIf (!around.inLoop) span (.jumpOutsideLoop "continue")
    pure (.continue span)
  | .return value span => do
    reportIf (around.function == .none) span .returnOutsideFunction
    reportIf (value.isSome && around.function == .initializer) span .returnFromInitializer
    let value ← Expr.resolveOption around.enclosingClass scopes value
    pure (.return value span)

/-- A declaration whose uses have their depths. -/
def Decl.resolve (around : Surroundings) (scopes : Scopes) : Decl → Checked Decl
  | .var name initial span => do
    checkNew scopes name span
    let initial ← Expr.resolveOption around.enclosingClass (scopes.declare name) initial
    pure (.var name initial span)
  | .function decl => do
    checkNew scopes decl.name decl.span
    let decl ← decl.resolve around (scopes.define decl.name) .function
    pure (.function decl)
  | .class name superclass methods span => do
    checkNew scopes name span
    let scopes := scopes.define name
    let superclass ← resolveSuperclass scopes name superclass
    let kind : ClassKind := if superclass.isSome then .derived else .base
    let methods ← FunctionDecl.resolveAll { around with enclosingClass := kind }
      (scopes.enterClass superclass.isSome) methods
    pure (.class name superclass methods span)
  | .stmt s => do
    let s ← s.resolve around scopes
    pure (.stmt s)

/-- Declarations, one after the other. -/
def Decl.resolveAll (around : Surroundings) (scopes : Scopes) : List Decl → Checked (List Decl)
  | [] => pure []
  | d :: ds => do
    let d' ← d.resolve around scopes
    let ds' ← Decl.resolveAll around (scopes.behind d) ds
    pure (d' :: ds')

/-- A function of the given kind. -/
def FunctionDecl.resolve (around : Surroundings) (scopes : Scopes) (kind : FunctionKind) :
    FunctionDecl → Checked FunctionDecl
  | ⟨name, params, body, span⟩ => do
    let scopes ← Param.resolveAll scopes.enter params
    let body ← Decl.resolveAll (around.inFunction kind) scopes body
    pure ⟨name, params, body, span⟩

/-- The methods of a class. -/
def FunctionDecl.resolveAll (around : Surroundings) (scopes : Scopes) :
    List FunctionDecl → Checked (List FunctionDecl)
  | [] => pure []
  | f :: fs => do
    let f' ← f.resolve around scopes (methodKind f.name)
    let fs' ← FunctionDecl.resolveAll around scopes fs
    pure (f' :: fs')

end

/-- A program whose uses have their depths, with its static errors in the order of the walk. -/
def Program.resolve (p : Program) : Checked Program := do
  let body ← Decl.resolveAll .topLevel [] p.body
  pure { p with body }

end Lox
