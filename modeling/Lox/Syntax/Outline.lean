import Lox.Syntax

/-!
# Outlines

The outline of a program lists its nodes in the order of a walk that visits each node before its
children, with the level of each.

## Contents
- `Outline.Detail`, `Outline.Row`: one line of an outline.
- `Program.outline`: the outline of a program.
- `Program.uses`: the rows of the uses of names, with their depths.
-/

namespace Lox

namespace Outline

/-- What distinguishes a node from others of its type. -/
inductive Detail
  | none
  | value (v : Literal)
  | name (text : String)

/-- A node of a program. -/
structure Row where
  level : Nat
  type : String
  detail : Detail
  span : Span
  /-- The depth of a use of a name; `none` at every other node. -/
  depth? : Option (Option Nat)

/-- The row of a node that uses no name. -/
def row (level : Nat) (type : String) (detail : Detail) (span : Span) : Row :=
  ⟨level, type, detail, span, .none⟩

/-- The row of a node that uses a name. -/
def useRow (level : Nat) (type : String) (detail : Detail) (span : Span)
    (depth : Option Nat) : Row :=
  ⟨level, type, detail, span, .some depth⟩

end Outline

open Outline

/-- The row of a variable. -/
def NameUse.row (n : Nat) (use : NameUse) : Row :=
  useRow n "Variable" (.name use.name) use.span use.depth

mutual

/-- The rows of an expression at level `n`. -/
def Expr.rows (n : Nat) : Expr → List Row
  | .literal value span => [row n "Literal" (.value value) span]
  | .grouping inner span => row n "Grouping" .none span :: inner.rows (n + 1)
  | .unary op operand span => row n "Unary" (.name op.text) span :: operand.rows (n + 1)
  | .binary op left right span =>
    row n "Binary" (.name op.text) span :: (left.rows (n + 1) ++ right.rows (n + 1))
  | .logical op left right span =>
    row n "Logical" (.name op.text) span :: (left.rows (n + 1) ++ right.rows (n + 1))
  | .variable use => [use.row n]
  | .assign name depth value span =>
    useRow n "Assign" (.name name) span depth :: value.rows (n + 1)
  | .call callee args span =>
    row n "Call" .none span :: (callee.rows (n + 1) ++ Expr.rowsOfAll (n + 1) args)
  | .get object name span => row n "Get" (.name name) span :: object.rows (n + 1)
  | .set object name value span =>
    row n "Set" (.name name) span :: (object.rows (n + 1) ++ value.rows (n + 1))
  | .this depth span => [useRow n "This" .none span depth]
  | .super depth method span => [useRow n "Super" (.name method) span depth]

/-- The rows of expressions at level `n`, one after the other. -/
def Expr.rowsOfAll (n : Nat) : List Expr → List Row
  | [] => []
  | e :: es => e.rows n ++ Expr.rowsOfAll n es

end

/-- The rows of an expression that may be absent. -/
def Expr.rowsOfOption (n : Nat) (e : Option Expr) : List Row := (e.map (·.rows n)).getD []

/-- The row of a parameter. -/
def Param.row (n : Nat) (p : Param) : Row := Outline.row n "Param" (.name p.name) p.span

mutual

/-- The rows of a statement at level `n`. -/
def Stmt.rows (n : Nat) : Stmt → List Row
  | .expression value span => row n "ExpressionStmt" .none span :: value.rows (n + 1)
  | .print value span => row n "PrintStmt" .none span :: value.rows (n + 1)
  | .block body span => row n "Block" .none span :: Decl.rowsOfAll (n + 1) body
  | .ifThenElse condition thenBranch none span =>
    row n "IfStmt" .none span :: (condition.rows (n + 1) ++ thenBranch.rows (n + 1))
  | .ifThenElse condition thenBranch (some elseBranch) span =>
    row n "IfStmt" .none span ::
      (condition.rows (n + 1) ++ thenBranch.rows (n + 1) ++ elseBranch.rows (n + 1))
  | .whileLoop condition body increment span =>
    row n "WhileStmt" .none span ::
      (condition.rows (n + 1) ++ body.rows (n + 1) ++ Expr.rowsOfOption (n + 1) increment)
  | .break span => [row n "BreakStmt" .none span]
  | .continue span => [row n "ContinueStmt" .none span]
  | .return value span => row n "ReturnStmt" .none span :: Expr.rowsOfOption (n + 1) value

/-- The rows of a declaration at level `n`. -/
def Decl.rows (n : Nat) : Decl → List Row
  | .var name initial span =>
    row n "VarStmt" (.name name) span :: Expr.rowsOfOption (n + 1) initial
  | .function decl => decl.rows n
  | .class name superclass methods span =>
    row n "ClassStmt" (.name name) span ::
      ((superclass.map (·.row (n + 1))).toList ++ FunctionDecl.rowsOfAll (n + 1) methods)
  | .stmt s => s.rows n

/-- The rows of declarations at level `n`, one after the other. -/
def Decl.rowsOfAll (n : Nat) : List Decl → List Row
  | [] => []
  | d :: ds => d.rows n ++ Decl.rowsOfAll n ds

/-- The rows of a function at level `n`. -/
def FunctionDecl.rows (n : Nat) : FunctionDecl → List Row
  | ⟨name, params, body, span⟩ =>
    row n "FunctionStmt" (.name name) span ::
      (params.map (·.row (n + 1)) ++ Decl.rowsOfAll (n + 1) body)

/-- The rows of functions at level `n`, one after the other. -/
def FunctionDecl.rowsOfAll (n : Nat) : List FunctionDecl → List Row
  | [] => []
  | f :: fs => f.rows n ++ FunctionDecl.rowsOfAll n fs

end

/-- The nodes of a program, each before its children. -/
def Program.outline (p : Program) : List Row :=
  row 0 "Program" .none p.span :: Decl.rowsOfAll 1 p.body

/-- The uses of names in a program, in the order of its outline. -/
def Program.uses (p : Program) : List Row := p.outline.filter (·.depth?.isSome)

end Lox
