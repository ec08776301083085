import Lox.Token

/-!
# Syntax trees

A program is a list of declarations. Statements occur where a declaration may not: as branches and
as loop bodies. Every node carries the span of the source that it was read from.

Each use of a name (`Expr.variable`, `Expr.assign`, `Expr.this`, `Expr.super`, and the superclass of
a class) carries a depth: the number of scopes between the use and its declaration. It is `none` for
a name that is looked up among the globals, which is how every use leaves the parser.

## Contents
- `UnaryOp`, `BinaryOp`, `LogicalOp`: the operators.
- `Expr`: expressions.
- `Stmt`, `Decl`, `FunctionDecl`: statements, declarations and functions.
- `Program`: a whole source text.
-/

namespace Lox

/-- Operators in front of one operand. -/
inductive UnaryOp
  | negate
  | not
deriving DecidableEq, Repr

def UnaryOp.text : UnaryOp → String
  | .negate => "-"
  | .not => "!"

/-- Operators that evaluate both operands. -/
inductive BinaryOp
  | add | subtract | multiply | divide
  | equal | notEqual | less | greater | lessEqual | greaterEqual
deriving DecidableEq, Repr

def BinaryOp.text : BinaryOp → String
  | .add => "+"
  | .subtract => "-"
  | .multiply => "*"
  | .divide => "/"
  | .equal => "=="
  | .notEqual => "!="
  | .less => "<"
  | .greater => ">"
  | .lessEqual => "<="
  | .greaterEqual => ">="

/-- Operators that evaluate the right operand only when the left one does not decide. -/
inductive LogicalOp
  | and
  | or
deriving DecidableEq, Repr

def LogicalOp.text : LogicalOp → String
  | .and => "and"
  | .or => "or"

/-- The use of a name, with the number of scopes between the use and its declaration. -/
structure NameUse where
  name : String
  depth : Option Nat
  span : Span
deriving DecidableEq, Repr

/-- Expressions. -/
inductive Expr
  | literal (value : Literal) (span : Span)
  | grouping (inner : Expr) (span : Span)
  | unary (op : UnaryOp) (operand : Expr) (span : Span)
  | binary (op : BinaryOp) (left right : Expr) (span : Span)
  | logical (op : LogicalOp) (left right : Expr) (span : Span)
  | variable (use : NameUse)
  | assign (name : String) (depth : Option Nat) (value : Expr) (span : Span)
  | call (callee : Expr) (args : List Expr) (span : Span)
  | get (object : Expr) (name : String) (span : Span)
  | set (object : Expr) (name : String) (value : Expr) (span : Span)
  | this (depth : Option Nat) (span : Span)
  | super (depth : Option Nat) (method : String) (span : Span)

/-- The source that an expression was read from. -/
def Expr.span : Expr → Span
  | .literal _ span => span
  | .grouping _ span => span
  | .unary _ _ span => span
  | .binary _ _ _ span => span
  | .logical _ _ _ span => span
  | .variable use => use.span
  | .assign _ _ _ span => span
  | .call _ _ span => span
  | .get _ _ span => span
  | .set _ _ _ span => span
  | .this _ span => span
  | .super _ _ span => span

/-- A parameter of a function. -/
structure Param where
  name : String
  span : Span
deriving DecidableEq, Repr

mutual

/-- Statements. A loop keeps the increment of a `for`, which runs after the body also when the body
ends early by `continue`. -/
inductive Stmt
  | expression (value : Expr) (span : Span)
  | print (value : Expr) (span : Span)
  | block (body : List Decl) (span : Span)
  | ifThenElse (condition : Expr) (thenBranch : Stmt) (elseBranch : Option Stmt) (span : Span)
  | whileLoop (condition : Expr) (body : Stmt) (increment : Option Expr) (span : Span)
  | «break» (span : Span)
  | «continue» (span : Span)
  | «return» (value : Option Expr) (span : Span)

/-- Declarations, statements among them. -/
inductive Decl
  | var (name : String) (initial : Option Expr) (span : Span)
  | function (decl : FunctionDecl)
  | «class» (name : String) (superclass : Option NameUse) (methods : List FunctionDecl) (span : Span)
  | stmt (s : Stmt)

/-- A function or a method with its name. -/
structure FunctionDecl where
  name : String
  params : List Param
  body : List Decl
  span : Span

end

/-- The name of the methods that initialize instances. -/
def initializerName : String := "init"

/-- The source that a statement was read from. -/
def Stmt.span : Stmt → Span
  | .expression _ span => span
  | .print _ span => span
  | .block _ span => span
  | .ifThenElse _ _ _ span => span
  | .whileLoop _ _ _ span => span
  | .break span => span
  | .continue span => span
  | .return _ span => span

/-- The source that a declaration was read from. -/
def Decl.span : Decl → Span
  | .var _ _ span => span
  | .function decl => decl.span
  | .class _ _ _ span => span
  | .stmt s => s.span

/-- A whole source text. -/
structure Program where
  body : List Decl
  span : Span

end Lox
