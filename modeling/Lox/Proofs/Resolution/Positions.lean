import Lox.Resolution

/-!
# Positions in a program

A position is a node of a program together with all that it stands in. A node is known by the way that
leads to it from the root, each step by the position of a child among the children of a node. What a
node stands in is read off the way: the scopes, functions, classes, loops and initializers that the
way goes into, and for each scope how far into it.

Nothing here is computed by walking through a program in some order; the order of the walk that
resolves names is itself a relation between ways.

## Contents
- `Enclosure`: what a node may stand in.
- `scopesAround`, `earlierNames`: the names that are declared around a node.
- `innermostFunction?`, `innermostClass?`, `inLoop`, `inInitializerOf`: the other surroundings.
- `Subtree`, `Subtree.child?`, `Subtree.at?`: nodes, and the ways that lead to them.
- `Subtree.Before`: which node a walk comes to first.
-/

namespace Lox.Resolving

/-! ## What a node stands in -/

/-- One of the things that a node may stand in. -/
inductive Enclosure
  /-- A local scope, of a block or of a function: the parameters, the declarations in front of the one
  that leads to the node, and that one itself. -/
  | scope (params : List Param) (before : List Decl) (current : Decl)
  /-- The body of a function or of a method. -/
  | function (name : String) (isMethod : Bool)
  /-- The methods of a class; `derived` tells whether the class has a superclass. -/
  | methods (derived : Bool)
  /-- The body of a loop. -/
  | loop
  /-- The initializer of a variable. -/
  | initializer (name : String)

/-- The names that declarations declare. -/
def declared (ds : List Decl) : List String := ds.filterMap Decl.name?

/-- The scopes that an enclosure opens, innermost first, each with the names that are declared in front
of the node or around it. -/
def Enclosure.scopes : Enclosure → List (List String)
  | .scope params before current => [params.map (·.name) ++ declared (before ++ [current])]
  | .methods true => [["this"], ["super"]]
  | .methods false => [["this"]]
  | .function _ _ | .loop | .initializer _ => []

/-- The local scopes around a node, innermost first. -/
def scopesAround (around : List Enclosure) : List (List String) := around.flatMap Enclosure.scopes

/-- What the innermost scope declares in front of the declaration that stands directly in it. -/
def earlierNames : List Enclosure → List String
  | .scope params before _ :: _ => params.map (·.name) ++ declared before
  | _ => []

/-- The innermost function, by its name, and whether it is a method. -/
def innermostFunction? : List Enclosure → Option (String × Bool)
  | [] => none
  | .function name isMethod :: _ => some (name, isMethod)
  | _ :: outer => innermostFunction? outer

/-- Whether the innermost class has a superclass. -/
def innermostClass? : List Enclosure → Option Bool
  | [] => none
  | .methods derived :: _ => some derived
  | _ :: outer => innermostClass? outer

/-- Whether there is a loop between a node and its innermost function, or else the top level. -/
def inLoop : List Enclosure → Bool
  | [] => false
  | .loop :: _ => true
  | .function _ _ :: _ => false
  | _ :: outer => inLoop outer

/-- Whether a node stands in the initializer of a local variable. -/
def inInitializerOf (name : String) : List Enclosure → Bool
  | [] => false
  | .initializer own :: outer =>
    (own == name && !(scopesAround outer).isEmpty) || inInitializerOf name outer
  | _ :: outer => inInitializerOf name outer

/-! ## Nodes and the ways to them -/

/-- A node of a program, with what is below it. -/
inductive Subtree
  | program (p : Program)
  | decl (d : Decl)
  | stmt (s : Stmt)
  /-- A method of a class. -/
  | method (f : FunctionDecl)
  /-- The superclass that a class names. -/
  | superclass (className : String) (use : NameUse)
  | expr (e : Expr)

/-- The node of a declaration. A statement among declarations is a node of its own kind. -/
def Subtree.ofDecl : Decl → Subtree
  | .stmt s => .stmt s
  | d => .decl d

/-- A child of an expression. -/
def exprChild? : Expr → Nat → Option Expr
  | .grouping inner _, 0 => some inner
  | .unary _ operand _, 0 => some operand
  | .binary _ left _ _, 0 => some left
  | .binary _ _ right _, 1 => some right
  | .logical _ left _ _, 0 => some left
  | .logical _ _ right _, 1 => some right
  | .assign _ _ value _, 0 => some value
  | .call callee _ _, 0 => some callee
  | .call _ args _, i + 1 => args[i]?
  | .get object _ _, 0 => some object
  | .set object _ _ _, 0 => some object
  | .set _ _ value _, 1 => some value
  | _, _ => none

/-- A declaration in a local scope, with that scope. -/
def declChild? (params : List Param) (body : List Decl) (i : Nat) :
    Option (List Enclosure × Subtree) :=
  body[i]?.map fun d => ([.scope params (body.take i) d], .ofDecl d)

/-- A child that is an expression which may be absent. -/
def optionChild? (enclosures : List Enclosure) (e : Option Expr) :
    Option (List Enclosure × Subtree) :=
  e.map fun e => (enclosures, .expr e)

/-- A child of a statement, with what it stands in. -/
def stmtChild? : Stmt → Nat → Option (List Enclosure × Subtree)
  | .expression value _, 0 => some ([], .expr value)
  | .print value _, 0 => some ([], .expr value)
  | .block body _, i => declChild? [] body i
  | .ifThenElse condition _ _ _, 0 => some ([], .expr condition)
  | .ifThenElse _ thenBranch _ _, 1 => some ([], .stmt thenBranch)
  | .ifThenElse _ _ (some elseBranch) _, 2 => some ([], .stmt elseBranch)
  | .whileLoop condition _ _ _, 0 => some ([], .expr condition)
  | .whileLoop _ body _ _, 1 => some ([.loop], .stmt body)
  | .whileLoop _ _ increment _, 2 => optionChild? [] increment
  | .return value _, 0 => optionChild? [] value
  | _, _ => none

/-- A child of a function: a declaration of its body. -/
def functionChild? (isMethod : Bool) (f : FunctionDecl) (i : Nat) :
    Option (List Enclosure × Subtree) :=
  (declChild? f.params f.body i).map fun (scope, d) => (scope ++ [.function f.name isMethod], d)

/-- A child of a declaration, with what it stands in. -/
def declarationChild? : Decl → Nat → Option (List Enclosure × Subtree)
  | .var name initial _, 0 => optionChild? [.initializer name] initial
  | .function f, i => functionChild? false f i
  | .class name superclass _ _, 0 => superclass.map fun use => ([], .superclass name use)
  | .class _ superclass methods _, i + 1 =>
    methods[i]?.map fun f => ([.methods superclass.isSome], .method f)
  | _, _ => none

namespace Subtree

/-- A child of a node, with what it stands in beyond the node itself. -/
def child? : Subtree → Nat → Option (List Enclosure × Subtree)
  | program p, i => p.body[i]?.map fun d => ([], ofDecl d)
  | decl d, i => declarationChild? d i
  | stmt s, i => stmtChild? s i
  | method f, i => functionChild? true f i
  | superclass _ _, _ => none
  | expr e, i => (exprChild? e i).map fun e => ([], expr e)

/-- The node to which a way leads, with all that it stands in, innermost first. -/
def at? (around : List Enclosure) : Subtree → List Nat → Option (List Enclosure × Subtree)
  | t, [] => some (around, t)
  | t, i :: way =>
    match t.child? i with
    | some (inner, c) => at? (inner ++ around) c way
    | none => none

/-- Whether the walk comes to one child before another. It takes the children in their order, but looks
at the value that is stored in a field before the object with that field. -/
def VisitsFirst (t : Subtree) (i j : Nat) : Prop :=
  match t with
  | expr (.set _ _ _ _) => j < i
  | _ => i < j

/-- Whether the walk comes to the node at one way before the node at another one. A node comes before
those below it. -/
def Before : Subtree → List Nat → List Nat → Prop
  | _, [], way => way ≠ []
  | _, _ :: _, [] => False
  | t, i :: way, j :: way' =>
    t.VisitsFirst i j ∨ i = j ∧ ∃ inner c, t.child? i = some (inner, c) ∧ Before c way way'

/-! ## Ways, step by step -/

section

variable (around : List Enclosure) (t : Subtree)

@[simp] theorem at?_nil : t.at? around [] = some (around, t) := by
  unfold at?
  rfl

theorem at?_cons_of_child {t : Subtree} {i : Nat} {inner : List Enclosure} {c : Subtree}
    (h : t.child? i = some (inner, c)) (way : List Nat) :
    t.at? around (i :: way) = c.at? (inner ++ around) way := by
  rw [at?, h]

theorem at?_cons_of_none {t : Subtree} {i : Nat} (h : t.child? i = none) (way : List Nat) :
    t.at? around (i :: way) = none := by
  rw [at?, h]

end

theorem before_nil {t : Subtree} {way : List Nat} : t.Before [] way ↔ way ≠ [] := by
  unfold Before
  exact Iff.rfl

theorem before_cons {t : Subtree} {i j : Nat} {way way' : List Nat} :
    t.Before (i :: way) (j :: way') ↔
      t.VisitsFirst i j ∨ i = j ∧ ∃ inner c, t.child? i = some (inner, c) ∧ c.Before way way' := by
  rw [Before]

theorem VisitsFirst.ne {t : Subtree} {i j : Nat} (h : t.VisitsFirst i j) : i ≠ j := by
  unfold VisitsFirst at h
  split at h <;> omega

/-- No node comes before itself. -/
theorem Before.irrefl {t : Subtree} {way : List Nat} : ¬t.Before way way := by
  induction way generalizing t with
  | nil => exact fun h => before_nil.1 h rfl
  | cons i way ih =>
      intro h
      rcases before_cons.1 h with hfirst | ⟨_, _, _, _, hbefore⟩
      · exact hfirst.ne rfl
      · exact ih hbefore

end Subtree

end Lox.Resolving

namespace Lox

open Resolving

/-- The node of a program to which a way leads, with all that it stands in. -/
def Program.at? (p : Program) (way : List Nat) : Option (List Enclosure × Subtree) :=
  (Subtree.program p).at? [] way

end Lox
