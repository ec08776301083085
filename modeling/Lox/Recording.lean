import Lox.Resolution

/-!
# The table of depths

A session keeps the depths of all uses of local names that it has resolved in one table, by the node
of each use. A node is known by the input that it came from and its place in the tree, so nodes of
different inputs are different, also when their texts are the same.

Resolving a program adds to the table as it goes, and goes on behind an error: what was added for a
program stays there when the program turns out not to be allowed. Before a program runs, the depths
of its uses are read back from the table. They never change after that, since no other program has
its nodes.

## Contents
- `Node`, `Locals`: nodes, and the depths recorded for them.
- `Recorder`: a walk that adds to the table and collects static errors.
- `Expr.record`, `Stmt.record`, `Decl.record`: the walk of the resolver.
- `Expr.annotate`, `Stmt.annotate`, `Decl.annotate`: depths read back from the table.
- `Resolutions`: the table of a session, and what becomes of it with a program.
-/

namespace Lox

/-! ## Nodes and the table -/

/-- A node of one of the first `inputs` programs of a session. -/
structure Node (inputs : Nat) where
  /-- The program that the node belongs to. -/
  input : Fin inputs
  /-- The way from the root, each step by its position among the children of a node. -/
  path : List Nat
deriving DecidableEq, Repr

namespace Node

variable {inputs : Nat}

/-- The root of the program that comes behind the first `inputs`. -/
def root (inputs : Nat) : Node (inputs + 1) := ⟨Fin.last inputs, []⟩

/-- A child of a node, by its position. -/
def child (node : Node inputs) (i : Nat) : Node inputs := { node with path := node.path ++ [i] }

/-- A node among those of one program more. -/
def earlier (node : Node inputs) : Node (inputs + 1) := { node with input := node.input.castSucc }

end Node

/-- The depths that are recorded for nodes, the latest first. A node without an entry is looked up
among the globals. -/
structure Locals (inputs : Nat) where
  entries : List (Node inputs × Nat)

namespace Locals

variable {inputs : Nat}

/-- The table without entries. -/
def empty : Locals inputs := ⟨[]⟩

/-- The depth recorded for a node. -/
def get? (locals : Locals inputs) (node : Node inputs) : Option Nat := locals.entries.lookup node

/-- Records a depth for a node. -/
def set (locals : Locals inputs) (node : Node inputs) (depth : Nat) : Locals inputs :=
  ⟨(node, depth) :: locals.entries⟩

/-- The same entries, for the nodes of one program more. -/
def next (locals : Locals inputs) : Locals (inputs + 1) :=
  ⟨locals.entries.map fun (node, depth) => (node.earlier, depth)⟩

end Locals

/-! ## Walks that record -/

/-- What a walk has done so far. -/
structure Recording (inputs : Nat) where
  locals : Locals inputs
  /-- The static errors found so far, in order. -/
  errors : List StaticError

/-- A walk that adds to the table and collects static errors. -/
abbrev Recorder (inputs : Nat) := StateM (Recording inputs)

namespace Recorder

variable {inputs : Nat}

/-- Collects the errors of a check. -/
def ofChecked {α : Type} (x : Checked α) : Recorder inputs α :=
  fun r => (x.value, { r with errors := r.errors ++ x.errors })

/-- Records the depth of a use; none for a name that no local scope declares. -/
def note (node : Node inputs) (depth : Option Nat) : Recorder inputs Unit :=
  fun r =>
    match depth with
    | none => ((), r)
    | some depth => ((), { r with locals := r.locals.set node depth })

end Recorder

open Checked Recorder

variable {inputs : Nat}

/-! ## The walk of the resolver -/

/-- Records a use of a variable. -/
def NameUse.record (scopes : Scopes) (node : Node inputs) (use : NameUse) :
    Recorder inputs Unit := do
  ofChecked (reportIf (scopes.isIncomplete use.name) use.span .ownInitializer)
  note node (scopes.distance? use.name)

mutual

/-- Records the uses in an expression, which is `node`. -/
def Expr.record (kind : ClassKind) (scopes : Scopes) (node : Node inputs) :
    Expr → Recorder inputs Unit
  | .literal _ _ => pure ()
  | .grouping inner _ => inner.record kind scopes (node.child 0)
  | .unary _ operand _ => operand.record kind scopes (node.child 0)
  | .binary _ left right _ => do
    left.record kind scopes (node.child 0)
    right.record kind scopes (node.child 1)
  | .logical _ left right _ => do
    left.record kind scopes (node.child 0)
    right.record kind scopes (node.child 1)
  | .variable use => use.record scopes node
  | .assign name _ value _ => do
    value.record kind scopes (node.child 0)
    note node (scopes.distance? name)
  | .call callee args _ => do
    callee.record kind scopes (node.child 0)
    Expr.recordAll kind scopes node 1 args
  | .get object _ _ => object.record kind scopes (node.child 0)
  | .set object _ value _ => do
    value.record kind scopes (node.child 1)
    object.record kind scopes (node.child 0)
  | .this _ span =>
    match kind with
    | .none => ofChecked (report span .thisOutsideClass)
    | _ => note node (scopes.distance? "this")
  | .super _ _ span =>
    match kind with
    | .none => ofChecked (report span .superOutsideClass)
    | .base => ofChecked (report span .superWithoutSuperclass)
    | .derived => note node (scopes.distance? "super")

/-- Expressions, one after the other: the children of `node` from position `i` on. -/
def Expr.recordAll (kind : ClassKind) (scopes : Scopes) (node : Node inputs) (i : Nat) :
    List Expr → Recorder inputs Unit
  | [] => pure ()
  | e :: es => do
    e.record kind scopes (node.child i)
    Expr.recordAll kind scopes node (i + 1) es

end

/-- An expression that may be absent. -/
def Expr.recordOption (kind : ClassKind) (scopes : Scopes) (node : Node inputs) :
    Option Expr → Recorder inputs Unit
  | none => pure ()
  | some e => e.record kind scopes node

/-- The superclass of a class with the given name, seen from inside that class. -/
def recordSuperclass (scopes : Scopes) (name : String) (node : Node inputs) :
    Option NameUse → Recorder inputs Unit
  | none => pure ()
  | some use => do
    ofChecked (reportIf (use.name == name) use.span .inheritsFromItself)
    use.record scopes node

mutual

/-- Records the uses in a statement. -/
def Stmt.record (around : Surroundings) (scopes : Scopes) (node : Node inputs) :
    Stmt → Recorder inputs Unit
  | .expression value _ => value.record around.enclosingClass scopes (node.child 0)
  | .print value _ => value.record around.enclosingClass scopes (node.child 0)
  | .block body _ => Decl.recordAll around scopes.enter node 0 body
  | .ifThenElse condition thenBranch none _ => do
    condition.record around.enclosingClass scopes (node.child 0)
    thenBranch.record around scopes (node.child 1)
  | .ifThenElse condition thenBranch (some elseBranch) _ => do
    condition.record around.enclosingClass scopes (node.child 0)
    thenBranch.record around scopes (node.child 1)
    elseBranch.record around scopes (node.child 2)
  | .whileLoop condition body increment _ => do
    condition.record around.enclosingClass scopes (node.child 0)
    body.record { around with inLoop := true } scopes (node.child 1)
    Expr.recordOption around.enclosingClass scopes (node.child 2) increment
  | .break span => ofChecked (reportIf (!around.inLoop) span (.jumpOutsideLoop "break"))
  | .continue span => ofChecked (reportIf (!around.inLoop) span (.jumpOutsideLoop "continue"))
  | .return value span => do
    ofChecked (reportIf (around.function == .none) span .returnOutsideFunction)
    ofChecked (reportIf (value.isSome && around.function == .initializer) span
      .returnFromInitializer)
    Expr.recordOption around.enclosingClass scopes (node.child 0) value

/-- Records the uses in a declaration. -/
def Decl.record (around : Surroundings) (scopes : Scopes) (node : Node inputs) :
    Decl → Recorder inputs Unit
  | .var name initial span => do
    ofChecked (checkNew scopes name span)
    Expr.recordOption around.enclosingClass (scopes.declare name) (node.child 0) initial
  | .function decl => do
    ofChecked (checkNew scopes decl.name decl.span)
    decl.record around (scopes.define decl.name) .function node
  | .class name superclass methods span => do
    ofChecked (checkNew scopes name span)
    let scopes := scopes.define name
    recordSuperclass scopes name (node.child 0) superclass
    let kind : ClassKind := if superclass.isSome then .derived else .base
    FunctionDecl.recordAll { around with enclosingClass := kind }
      (scopes.enterClass superclass.isSome) node 1 methods
  | .stmt s => s.record around scopes node

/-- Declarations, one after the other: the children of `node` from position `i` on. -/
def Decl.recordAll (around : Surroundings) (scopes : Scopes) (node : Node inputs) (i : Nat) :
    List Decl → Recorder inputs Unit
  | [] => pure ()
  | d :: ds => do
    d.record around scopes (node.child i)
    Decl.recordAll around (scopes.behind d) node (i + 1) ds

/-- Records the uses in a function of the given kind. -/
def FunctionDecl.record (around : Surroundings) (scopes : Scopes) (kind : FunctionKind)
    (node : Node inputs) : FunctionDecl → Recorder inputs Unit
  | ⟨_, params, body, _⟩ => do
    let scopes ← ofChecked (Param.resolveAll scopes.enter params)
    Decl.recordAll (around.inFunction kind) scopes node 0 body

/-- The methods of a class: the children of `node` from position `i` on. -/
def FunctionDecl.recordAll (around : Surroundings) (scopes : Scopes) (node : Node inputs)
    (i : Nat) : List FunctionDecl → Recorder inputs Unit
  | [] => pure ()
  | f :: fs => do
    f.record around scopes (methodKind f.name) (node.child i)
    FunctionDecl.recordAll around scopes node (i + 1) fs

end

/-! ## Reading depths back -/

section

variable (locals : Locals inputs)

/-- A use of a variable with the depth of its node. -/
def NameUse.annotate (node : Node inputs) (use : NameUse) : NameUse :=
  { use with depth := locals.get? node }

mutual

/-- An expression whose uses have the depths of their nodes. -/
def Expr.annotate (node : Node inputs) : Expr → Expr
  | .literal value span => .literal value span
  | .grouping inner span => .grouping (inner.annotate (node.child 0)) span
  | .unary op operand span => .unary op (operand.annotate (node.child 0)) span
  | .binary op left right span =>
    .binary op (left.annotate (node.child 0)) (right.annotate (node.child 1)) span
  | .logical op left right span =>
    .logical op (left.annotate (node.child 0)) (right.annotate (node.child 1)) span
  | .variable use => .variable (use.annotate locals node)
  | .assign name _ value span =>
    .assign name (locals.get? node) (value.annotate (node.child 0)) span
  | .call callee args span =>
    .call (callee.annotate (node.child 0)) (Expr.annotateAll node 1 args) span
  | .get object name span => .get (object.annotate (node.child 0)) name span
  | .set object name value span =>
    .set (object.annotate (node.child 0)) name (value.annotate (node.child 1)) span
  | .this _ span => .this (locals.get? node) span
  | .super _ method span => .super (locals.get? node) method span

/-- Expressions, one after the other: the children of `node` from position `i` on. -/
def Expr.annotateAll (node : Node inputs) (i : Nat) : List Expr → List Expr
  | [] => []
  | e :: es => e.annotate (node.child i) :: Expr.annotateAll node (i + 1) es

end

/-- An expression that may be absent. -/
def Expr.annotateOption (node : Node inputs) (e : Option Expr) : Option Expr :=
  e.map (·.annotate locals node)

mutual

/-- A statement whose uses have the depths of their nodes. -/
def Stmt.annotate (node : Node inputs) : Stmt → Stmt
  | .expression value span => .expression (value.annotate locals (node.child 0)) span
  | .print value span => .print (value.annotate locals (node.child 0)) span
  | .block body span => .block (Decl.annotateAll node 0 body) span
  | .ifThenElse condition thenBranch none span =>
    .ifThenElse (condition.annotate locals (node.child 0)) (thenBranch.annotate (node.child 1))
      none span
  | .ifThenElse condition thenBranch (some elseBranch) span =>
    .ifThenElse (condition.annotate locals (node.child 0)) (thenBranch.annotate (node.child 1))
      (some (elseBranch.annotate (node.child 2))) span
  | .whileLoop condition body increment span =>
    .whileLoop (condition.annotate locals (node.child 0)) (body.annotate (node.child 1))
      (Expr.annotateOption locals (node.child 2) increment) span
  | .break span => .break span
  | .continue span => .continue span
  | .return value span => .return (Expr.annotateOption locals (node.child 0) value) span

/-- A declaration whose uses have the depths of their nodes. -/
def Decl.annotate (node : Node inputs) : Decl → Decl
  | .var name initial span =>
    .var name (Expr.annotateOption locals (node.child 0) initial) span
  | .function decl => .function (decl.annotate node)
  | .class name superclass methods span =>
    .class name (superclass.map (·.annotate locals (node.child 0)))
      (FunctionDecl.annotateAll node 1 methods) span
  | .stmt s => .stmt (s.annotate node)

/-- Declarations, one after the other: the children of `node` from position `i` on. -/
def Decl.annotateAll (node : Node inputs) (i : Nat) : List Decl → List Decl
  | [] => []
  | d :: ds => d.annotate (node.child i) :: Decl.annotateAll node (i + 1) ds

/-- A function whose uses have the depths of their nodes. -/
def FunctionDecl.annotate (node : Node inputs) : FunctionDecl → FunctionDecl
  | ⟨name, params, body, span⟩ => ⟨name, params, Decl.annotateAll node 0 body, span⟩

/-- The methods of a class: the children of `node` from position `i` on. -/
def FunctionDecl.annotateAll (node : Node inputs) (i : Nat) :
    List FunctionDecl → List FunctionDecl
  | [] => []
  | f :: fs => f.annotate (node.child i) :: FunctionDecl.annotateAll node (i + 1) fs

end

end

/-- Records the uses in a program, whose statements are the children of `root`. -/
def Program.record (root : Node inputs) (p : Program) : Recorder inputs Unit :=
  Decl.recordAll .topLevel [] root 0 p.body

/-- A program whose uses have the depths of their nodes. -/
def Program.annotate (locals : Locals inputs) (root : Node inputs) (p : Program) : Program :=
  { p with body := Decl.annotateAll locals root 0 p.body }

/-! ## The table of a session -/

/-- How many programs a session has resolved, and the depths recorded for their nodes. -/
structure Resolutions where
  inputs : Nat
  locals : Locals inputs

namespace Resolutions

/-- Before the first program. -/
def empty : Resolutions := ⟨0, .empty⟩

/-- Resolves a program, whose nodes are new: the table with what the walk adds to it, and the
program with its depths or its static errors. -/
def resolve (r : Resolutions) (p : Program) : Checked Program × Resolutions :=
  let root := Node.root r.inputs
  let recording := (p.record root ⟨r.locals.next, []⟩).2
  (⟨p.annotate recording.locals root, recording.errors⟩, ⟨r.inputs + 1, recording.locals⟩)

end Resolutions

end Lox
