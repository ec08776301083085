import Lox.Proofs.Scoping.Jumps
import Mathlib.Logic.Function.Basic

/-!
# Other names for local variables

A local variable is renamed in a tree whose uses have their depths: with the variable itself, exactly
those uses change that have its name and lead to its scope. What a tree becomes is said for all scopes
at once. Each scope has a naming, which gives its variables other names; most scopes have the one that
leaves them as they are. Functions and classes show their names, so a naming has to leave these alone.

A scope is known by its way: where it is opened, each step by its position among the children of a
node.

## Contents
- `Naming`, `Naming.exchange`: other names for the variables of a scope.
- `Plan`: a naming for every scope of a tree.
- `Expr.rename`, `Stmt.rename`, `Decl.rename`, `Program.rename`: trees with other names.
- `Expr.names`, `Stmt.names`, `Decl.names`, `Program.names`: the names that occur in a tree.
- `LocalScope`, `Program.scopeAt?`: the scopes of a tree, by their ways.
- `Program.exists_scopeAt?`: every block and every function is found.
- `Plan.Suits`: a plan that leaves the names of functions and classes alone.
- `rename_same`: what does not change anything.
-/

namespace Lox

/-! ## Namings -/

/-- Other names for the variables of one scope. Names are exchanged in pairs, so that different names
stay different; the words for receivers and superclasses are none of them. -/
structure Naming where
  of : String → String
  involutive : Function.Involutive of
  of_reserved : ∀ name, Reserved name → of name = name

namespace Naming

instance : CoeFun Naming fun _ => String → String := ⟨of⟩

theorem injective (f : Naming) : Function.Injective f := f.involutive.injective

/-- All names stay as they are. -/
def same : Naming := ⟨id, fun _ => rfl, fun _ _ => rfl⟩

@[simp] theorem same_of (name : String) : same name = name := rfl

/-- One name for another. Where the new name does not occur, this renames the old one. -/
def exchange (old new : String) (hold : ¬Reserved old) (hnew : ¬Reserved new) : Naming where
  of name := if name = old then new else if name = new then old else name
  involutive name := by
    by_cases h : name = old
    · subst h
      by_cases h' : new = name <;> simp [h']
    · by_cases h' : name = new <;> simp [h, h']
  of_reserved name hname := by
    have hne : name ≠ old := fun h => hold (h ▸ hname)
    have hne' : name ≠ new := fun h => hnew (h ▸ hname)
    rw [if_neg hne, if_neg hne']

/-- The name of a use in scopes with the given namings, innermost first. -/
def ofUse (fs : List Naming) (depth : Option Nat) (name : String) : String :=
  match depth with
  | some d => fs.getD d same name
  | none => name

theorem ofUse_reserved (fs : List Naming) (depth : Option Nat) {name : String}
    (hname : Reserved name) : ofUse fs depth name = name := by
  cases depth with
  | none => rfl
  | some d => exact (fs.getD d same).of_reserved name hname

end Naming

/-- The scopes around the methods of a class, for `this` and with a superclass for `super`, keep their
names. -/
def Naming.ofClass (derived : Bool) (fs : List Naming) : List Naming :=
  .same :: if derived then .same :: fs else fs

/-- A naming for every scope of a tree, by its way. -/
abbrev Plan := List Nat → Naming

namespace Plan

/-- No scope has other names. -/
def same : Plan := fun _ => .same

/-- One scope has other names. -/
def only (way : List Nat) (f : Naming) : Plan := fun w => if w = way then f else .same

/-- The namings of the scopes in a child. -/
def below (plan : Plan) (i : Nat) : Plan := fun way => plan (i :: way)

/-- The namings of the scopes in all children but the first one. -/
def next (plan : Plan) : Plan := fun way =>
  match way with
  | [] => plan []
  | i :: way => plan ((i + 1) :: way)

end Plan

/-! ## Renaming -/

/-- A use with its other name. -/
def NameUse.rename (fs : List Naming) (use : NameUse) : NameUse :=
  { use with name := Naming.ofUse fs use.depth use.name }

/-- A parameter with its other name. -/
def Param.rename (f : Naming) (p : Param) : Param := { p with name := f p.name }

mutual

/-- An expression whose uses have other names. -/
def Expr.rename (fs : List Naming) : Expr → Expr
  | .literal value span => .literal value span
  | .grouping inner span => .grouping (inner.rename fs) span
  | .unary op operand span => .unary op (operand.rename fs) span
  | .binary op left right span => .binary op (left.rename fs) (right.rename fs) span
  | .logical op left right span => .logical op (left.rename fs) (right.rename fs) span
  | .variable use => .variable (use.rename fs)
  | .assign name depth value span =>
    .assign (Naming.ofUse fs depth name) depth (value.rename fs) span
  | .call callee args span => .call (callee.rename fs) (Expr.renameAll fs args) span
  | .get object name span => .get (object.rename fs) name span
  | .set object name value span => .set (object.rename fs) name (value.rename fs) span
  | .this depth span => .this depth span
  | .super depth method span => .super depth method span

/-- Expressions whose uses have other names. -/
def Expr.renameAll (fs : List Naming) : List Expr → List Expr
  | [] => []
  | e :: es => e.rename fs :: Expr.renameAll fs es

end

mutual

/-- A statement with other names for local variables. -/
def Stmt.rename (plan : Plan) (fs : List Naming) : Stmt → Stmt
  | .expression value span => .expression (value.rename fs) span
  | .print value span => .print (value.rename fs) span
  | .block body span => .block (Decl.renameAll plan (plan [] :: fs) body) span
  | .ifThenElse condition thenBranch none span =>
    .ifThenElse (condition.rename fs) (thenBranch.rename (plan.below 1) fs) none span
  | .ifThenElse condition thenBranch (some elseBranch) span =>
    .ifThenElse (condition.rename fs) (thenBranch.rename (plan.below 1) fs)
      (some (elseBranch.rename (plan.below 2) fs)) span
  | .whileLoop condition body increment span =>
    .whileLoop (condition.rename fs) (body.rename (plan.below 1) fs)
      (increment.map (·.rename fs)) span
  | .break span => .break span
  | .continue span => .continue span
  | .return value span => .return (value.map (·.rename fs)) span

/-- A declaration with other names for local variables. The variable that it declares is one of the
innermost scope. -/
def Decl.rename (plan : Plan) (fs : List Naming) : Decl → Decl
  | .var name initial span => .var (fs.headD .same name) (initial.map (·.rename fs)) span
  | .function decl => .function (decl.rename plan fs)
  | .class name superclass methods span =>
    .class name (superclass.map (·.rename fs))
      (FunctionDecl.renameAll plan.next (Naming.ofClass superclass.isSome fs) methods) span
  | .stmt s => .stmt (s.rename plan fs)

/-- Declarations with other names for local variables. -/
def Decl.renameAll (plan : Plan) (fs : List Naming) : List Decl → List Decl
  | [] => []
  | d :: ds => d.rename (plan.below 0) fs :: Decl.renameAll plan.next fs ds

/-- A function with other names for local variables. -/
def FunctionDecl.rename (plan : Plan) (fs : List Naming) : FunctionDecl → FunctionDecl
  | ⟨name, params, body, span⟩ =>
    ⟨name, params.map (·.rename (plan [])), Decl.renameAll plan (plan [] :: fs) body, span⟩

/-- Functions with other names for local variables. -/
def FunctionDecl.renameAll (plan : Plan) (fs : List Naming) : List FunctionDecl → List FunctionDecl
  | [] => []
  | f :: rest => f.rename (plan.below 0) fs :: FunctionDecl.renameAll plan.next fs rest

end

/-- A program with other names for local variables. The globals keep their names. -/
def Program.rename (plan : Plan) (p : Program) : Program :=
  { p with body := Decl.renameAll plan [.same] p.body }

/-! ## The names in a tree -/

mutual

/-- The names of variables that occur in an expression. -/
def Expr.names : Expr → List String
  | .literal _ _ => []
  | .grouping inner _ => inner.names
  | .unary _ operand _ => operand.names
  | .binary _ left right _ => left.names ++ right.names
  | .logical _ left right _ => left.names ++ right.names
  | .variable use => [use.name]
  | .assign name _ value _ => name :: value.names
  | .call callee args _ => callee.names ++ Expr.namesAll args
  | .get object _ _ => object.names
  | .set object _ value _ => object.names ++ value.names
  | .this _ _ => []
  | .super _ _ _ => []

/-- The names of variables that occur in expressions. -/
def Expr.namesAll : List Expr → List String
  | [] => []
  | e :: es => e.names ++ Expr.namesAll es

end

/-- The names of variables that occur in an expression that may be absent. -/
def Expr.namesOption : Option Expr → List String
  | none => []
  | some e => e.names

mutual

/-- The names of variables, functions and classes that occur in a statement. -/
def Stmt.names : Stmt → List String
  | .expression value _ => value.names
  | .print value _ => value.names
  | .block body _ => Decl.namesAll body
  | .ifThenElse condition thenBranch none _ => condition.names ++ thenBranch.names
  | .ifThenElse condition thenBranch (some elseBranch) _ =>
    condition.names ++ thenBranch.names ++ elseBranch.names
  | .whileLoop condition body increment _ =>
    condition.names ++ body.names ++ Expr.namesOption increment
  | .break _ => []
  | .continue _ => []
  | .return value _ => Expr.namesOption value

/-- The names of variables, functions and classes that occur in a declaration. -/
def Decl.names : Decl → List String
  | .var name initial _ => name :: Expr.namesOption initial
  | .function decl => decl.name :: decl.names
  | .class name superclass methods _ =>
    name :: (superclass.map (·.name)).toList ++ FunctionDecl.namesAll methods
  | .stmt s => s.names

/-- The names of variables, functions and classes that occur in declarations. -/
def Decl.namesAll : List Decl → List String
  | [] => []
  | d :: ds => d.names ++ Decl.namesAll ds

/-- The names of variables, functions and classes that occur in a function. -/
def FunctionDecl.names : FunctionDecl → List String
  | ⟨_, params, body, _⟩ => params.map (·.name) ++ Decl.namesAll body

/-- The names of variables, functions and classes that occur in functions. -/
def FunctionDecl.namesAll : List FunctionDecl → List String
  | [] => []
  | f :: fs => f.names ++ FunctionDecl.namesAll fs

end

/-- The names of variables, functions and classes that occur in a program. -/
def Program.names (p : Program) : List String := Decl.namesAll p.body

/-! ## The scopes of a tree -/

/-- What is declared in a local scope: the parameters of a function, and what stands in its body or in
a block. -/
structure LocalScope where
  params : List Param
  body : List Decl

mutual

/-- The scope in a statement to which a way leads. -/
def Stmt.scopeAt? (way : List Nat) : Stmt → Option LocalScope
  | .block body _ => if way = [] then some ⟨[], body⟩ else Decl.scopeIn? way body
  | .ifThenElse _ thenBranch none _ =>
    match way with
    | 1 :: way => thenBranch.scopeAt? way
    | _ => none
  | .ifThenElse _ thenBranch (some elseBranch) _ =>
    match way with
    | 1 :: way => thenBranch.scopeAt? way
    | 2 :: way => elseBranch.scopeAt? way
    | _ => none
  | .whileLoop _ body _ _ =>
    match way with
    | 1 :: way => body.scopeAt? way
    | _ => none
  | .expression _ _ | .print _ _ | .break _ | .continue _ | .return _ _ => none

/-- The scope in a declaration to which a way leads. -/
def Decl.scopeAt? (way : List Nat) : Decl → Option LocalScope
  | .var _ _ _ => none
  | .function decl => decl.scopeAt? way
  | .class _ _ methods _ =>
    match way with
    | (i + 1) :: way => FunctionDecl.scopeIn? (i :: way) methods
    | _ => none
  | .stmt s => s.scopeAt? way

/-- The scope in declarations to which a way leads. -/
def Decl.scopeIn? (way : List Nat) : List Decl → Option LocalScope
  | [] => none
  | d :: ds =>
    match way with
    | [] => none
    | 0 :: way => d.scopeAt? way
    | (i + 1) :: way => Decl.scopeIn? (i :: way) ds

/-- The scope in a function to which a way leads. -/
def FunctionDecl.scopeAt? (way : List Nat) : FunctionDecl → Option LocalScope
  | ⟨_, params, body, _⟩ => if way = [] then some ⟨params, body⟩ else Decl.scopeIn? way body

/-- The scope in functions to which a way leads. -/
def FunctionDecl.scopeIn? (way : List Nat) : List FunctionDecl → Option LocalScope
  | [] => none
  | f :: fs =>
    match way with
    | [] => none
    | 0 :: way => f.scopeAt? way
    | (i + 1) :: way => FunctionDecl.scopeIn? (i :: way) fs

end

/-- The local scope of a program to which a way leads. -/
def Program.scopeAt? (p : Program) (way : List Nat) : Option LocalScope := Decl.scopeIn? way p.body

/-! ## All scopes have ways -/

section Ways

open Scoping

/-- The scope in a construct to which a way leads. -/
def Scoping.Construct.scopeAt? (way : List Nat) : Construct → Option LocalScope
  | .decl d => d.scopeAt? way
  | .stmt s => s.scopeAt? way
  | .function f => f.scopeAt? way

theorem Decl.scopeIn?_getElem {ds : List Decl} {i : Nat} {d : Decl} (h : ds[i]? = some d)
    (way : List Nat) : Decl.scopeIn? (i :: way) ds = d.scopeAt? way := by
  induction ds generalizing i with
  | nil => exact nomatch h
  | cons d' ds ih =>
      cases i with
      | zero =>
          cases h
          rfl
      | succ i => exact ih h

theorem FunctionDecl.scopeIn?_getElem {functions : List FunctionDecl} {i : Nat} {f : FunctionDecl}
    (h : functions[i]? = some f) (way : List Nat) :
    FunctionDecl.scopeIn? (i :: way) functions = f.scopeAt? way := by
  induction functions generalizing i with
  | nil => exact nomatch h
  | cons f' rest ih =>
      cases i with
      | zero =>
          cases h
          rfl
      | succ i => exact ih h

/-- A way that goes on from a construct inside another one. -/
theorem exists_way_behind {ds : List Decl} {c c' : Construct} (steps : List Nat)
    (h : ∃ way, ∀ rest, Decl.scopeIn? (way ++ rest) ds = c.scopeAt? rest)
    (hstep : ∀ rest, c.scopeAt? (steps ++ rest) = c'.scopeAt? rest) :
    ∃ way, ∀ rest, Decl.scopeIn? (way ++ rest) ds = c'.scopeAt? rest := by
  obtain ⟨way, hway⟩ := h
  refine ⟨way ++ steps, fun rest => ?_⟩
  rw [List.append_assoc, hway, hstep]

/-- A way leads to every construct that declarations contain. -/
theorem exists_way {ds : List Decl} {l : Bool} {c : Construct} (h : Contains ds l c) :
    ∃ way, ∀ rest, Decl.scopeIn? (way ++ rest) ds = c.scopeAt? rest := by
  induction h with
  | @top d hd =>
      obtain ⟨i, hi⟩ := List.mem_iff_getElem?.1 hd
      exact ⟨[i], Decl.scopeIn?_getElem hi⟩
  | statement _ ih => exact ih
  | @block l body span d _ hd ih =>
      obtain ⟨i, hi⟩ := List.mem_iff_getElem?.1 hd
      exact exists_way_behind [i] ih (Decl.scopeIn?_getElem hi)
  | @thenBranch l c t e span _ ih =>
      refine exists_way_behind [1] ih fun rest => ?_
      cases e <;> rfl
  | elseBranch _ ih => exact exists_way_behind [2] ih fun rest => rfl
  | loopBody _ ih => exact exists_way_behind [1] ih fun rest => rfl
  | function _ ih => exact ih
  | @method l name superclass methods span f _ hf ih =>
      obtain ⟨i, hi⟩ := List.mem_iff_getElem?.1 hf
      exact exists_way_behind [i + 1] ih (FunctionDecl.scopeIn?_getElem hi)
  | @body l f d _ hd ih =>
      obtain ⟨i, hi⟩ := List.mem_iff_getElem?.1 hd
      obtain ⟨name, params, body, span⟩ := f
      exact exists_way_behind [i] ih (Decl.scopeIn?_getElem hi)

/-- **Every block and every function of a program has its scope at the end of some way.** -/
theorem Program.exists_scopeAt? {p : Program} {l : Bool} :
    (∀ body span, Contains p.body l (.stmt (.block body span)) →
      ∃ way, p.scopeAt? way = some ⟨[], body⟩) ∧
    ∀ f, Contains p.body l (.function f) → ∃ way, p.scopeAt? way = some ⟨f.params, f.body⟩ := by
  have hroot {c : Construct} (h : Contains p.body l c) :
      ∃ way, p.scopeAt? way = c.scopeAt? [] := by
    obtain ⟨way, hway⟩ := exists_way h
    exact ⟨way, (congrArg (Decl.scopeIn? · p.body) way.append_nil.symm).trans (hway [])⟩
  refine ⟨fun body span h => hroot h, fun f h => ?_⟩
  obtain ⟨name, params, body, span⟩ := f
  exact hroot h

end Ways

/-! ## Plans that leave functions and classes alone -/

/-- A naming leaves the name of a function or class alone. -/
def Decl.KeepsName (f : Naming) : Decl → Prop
  | .function decl => f decl.name = decl.name
  | .class name _ _ _ => f name = name
  | .var _ _ _ | .stmt _ => True

theorem Decl.keepsName_same (d : Decl) : d.KeepsName .same := by
  cases d <;> trivial

/-- A naming leaves the names of functions and classes of a scope alone. -/
def LocalScope.KeepsNames (f : Naming) (scope : LocalScope) : Prop := ∀ d ∈ scope.body, d.KeepsName f

/-- A plan leaves the names of functions and classes alone, in all the scopes that are found. -/
def Plan.Suits (plan : Plan) (scopeAt? : List Nat → Option LocalScope) : Prop :=
  ∀ way scope, scopeAt? way = some scope → scope.KeepsNames (plan way)

namespace Plan.Suits

variable {plan : Plan}

theorem head {d : Decl} {ds : List Decl}
    (h : plan.Suits fun way => Decl.scopeIn? way (d :: ds)) :
    (plan.below 0).Suits fun way => d.scopeAt? way :=
  fun way scope hscope => h (0 :: way) scope hscope

theorem tail {d : Decl} {ds : List Decl}
    (h : plan.Suits fun way => Decl.scopeIn? way (d :: ds)) :
    plan.next.Suits fun way => Decl.scopeIn? way ds := by
  intro way scope hscope
  cases way with
  | nil => cases ds <;> exact nomatch hscope
  | cons i way => exact h ((i + 1) :: way) scope hscope

theorem headFunction {f : FunctionDecl} {fs : List FunctionDecl}
    (h : plan.Suits fun way => FunctionDecl.scopeIn? way (f :: fs)) :
    (plan.below 0).Suits fun way => f.scopeAt? way :=
  fun way scope hscope => h (0 :: way) scope hscope

theorem tailFunctions {f : FunctionDecl} {fs : List FunctionDecl}
    (h : plan.Suits fun way => FunctionDecl.scopeIn? way (f :: fs)) :
    plan.next.Suits fun way => FunctionDecl.scopeIn? way fs := by
  intro way scope hscope
  cases way with
  | nil => cases fs <;> exact nomatch hscope
  | cons i way => exact h ((i + 1) :: way) scope hscope

/-- The scope of a block or a function itself, and those in its body. -/
theorem body {params : List Param} {body : List Decl}
    (h : plan.Suits fun way =>
      if way = [] then some ⟨params, body⟩ else Decl.scopeIn? way body) :
    (∀ d ∈ body, d.KeepsName (plan [])) ∧ plan.Suits fun way => Decl.scopeIn? way body := by
  refine ⟨h [] ⟨params, body⟩ rfl, fun way scope hscope => ?_⟩
  by_cases hway : way = []
  · subst hway
    cases body <;> exact nomatch hscope
  · exact h way scope ((if_neg hway).trans hscope)

theorem thenBranch {condition : Expr} {thenBranch : Stmt} {elseBranch : Option Stmt} {span : Span}
    (h : plan.Suits fun way =>
      (Stmt.ifThenElse condition thenBranch elseBranch span).scopeAt? way) :
    (plan.below 1).Suits fun way => thenBranch.scopeAt? way := by
  intro way scope hscope
  cases elseBranch <;> exact h (1 :: way) scope hscope

theorem elseBranch {condition : Expr} {thenBranch elseBranch : Stmt} {span : Span}
    (h : plan.Suits fun way =>
      (Stmt.ifThenElse condition thenBranch (some elseBranch) span).scopeAt? way) :
    (plan.below 2).Suits fun way => elseBranch.scopeAt? way :=
  fun way scope hscope => h (2 :: way) scope hscope

theorem loop {condition : Expr} {body : Stmt} {increment : Option Expr} {span : Span}
    (h : plan.Suits fun way => (Stmt.whileLoop condition body increment span).scopeAt? way) :
    (plan.below 1).Suits fun way => body.scopeAt? way :=
  fun way scope hscope => h (1 :: way) scope hscope

theorem methods {name : String} {superclass : Option NameUse} {methods : List FunctionDecl}
    {span : Span}
    (h : plan.Suits fun way => (Decl.class name superclass methods span).scopeAt? way) :
    plan.next.Suits fun way => FunctionDecl.scopeIn? way methods := by
  intro way scope hscope
  cases way with
  | nil => cases methods <;> exact nomatch hscope
  | cons i way => exact h ((i + 1) :: way) scope hscope

/-- Where no scope has other names, all names are left alone. -/
theorem same (scopeAt? : List Nat → Option LocalScope) : Plan.same.Suits scopeAt? :=
  fun _ _ _ d _ => d.keepsName_same

end Plan.Suits

/-! ## Nothing renamed -/

@[simp] theorem Plan.next_same : Plan.same.next = Plan.same := by
  funext way
  cases way <;> rfl

@[simp] theorem Plan.below_same (i : Nat) : Plan.same.below i = Plan.same := rfl

/-- Scopes whose variables all keep their names. -/
def Naming.AllSame (fs : List Naming) : Prop := ∀ f ∈ fs, f = .same

namespace Naming.AllSame

variable {fs : List Naming}

theorem cons (h : AllSame fs) : AllSame (.same :: fs) := by
  intro f hf
  rcases List.mem_cons.1 hf with rfl | hf
  · rfl
  · exact h f hf

theorem ofClass (h : AllSame fs) (derived : Bool) : AllSame (Naming.ofClass derived fs) := by
  cases derived with
  | false => exact h.cons
  | true => exact h.cons.cons

theorem headD (h : AllSame fs) : fs.headD same = same := by
  cases fs with
  | nil => rfl
  | cons f fs => exact h f List.mem_cons_self

theorem ofUse (h : AllSame fs) (depth : Option Nat) (name : String) :
    Naming.ofUse fs depth name = name := by
  cases depth with
  | none => rfl
  | some d =>
      unfold Naming.ofUse
      dsimp only
      rw [List.getD_eq_getElem?_getD]
      cases hd : fs[d]? with
      | none => rfl
      | some f =>
          rw [Option.getD_some, h f (List.mem_of_getElem? hd)]
          rfl

end Naming.AllSame

open Naming

theorem NameUse.rename_same {fs : List Naming} (h : AllSame fs) (use : NameUse) :
    use.rename fs = use := by
  unfold NameUse.rename
  rw [h.ofUse]

mutual

theorem Expr.rename_same {fs : List Naming} (h : AllSame fs) : (e : Expr) → e.rename fs = e
  | .literal _ _ | .this _ _ | .super _ _ _ => rfl
  | .grouping inner span => congrArg (Expr.grouping · span) (inner.rename_same h)
  | .unary op operand span => congrArg (Expr.unary op · span) (operand.rename_same h)
  | .binary op left right span =>
      congrArg₂ (Expr.binary op · · span) (left.rename_same h) (right.rename_same h)
  | .logical op left right span =>
      congrArg₂ (Expr.logical op · · span) (left.rename_same h) (right.rename_same h)
  | .variable use => congrArg Expr.variable (use.rename_same h)
  | .assign name depth value span =>
      congrArg₂ (Expr.assign · depth · span) (h.ofUse depth name) (value.rename_same h)
  | .call callee args span =>
      congrArg₂ (Expr.call · · span) (callee.rename_same h) (Expr.renameAll_same h args)
  | .get object name span => congrArg (Expr.get · name span) (object.rename_same h)
  | .set object name value span =>
      congrArg₂ (Expr.set · name · span) (object.rename_same h) (value.rename_same h)

theorem Expr.renameAll_same {fs : List Naming} (h : AllSame fs) :
    (es : List Expr) → Expr.renameAll fs es = es
  | [] => rfl
  | e :: es => congrArg₂ List.cons (e.rename_same h) (Expr.renameAll_same h es)

end

theorem Expr.renameOption_same {fs : List Naming} (h : AllSame fs) (e : Option Expr) :
    e.map (·.rename fs) = e := by
  cases e with
  | none => rfl
  | some e => exact congrArg some (e.rename_same h)

theorem Param.renameAll_same (params : List Param) : params.map (·.rename .same) = params :=
  List.map_id params

mutual

theorem Stmt.rename_same {fs : List Naming} (h : AllSame fs) : (s : Stmt) → s.rename .same fs = s
  | .expression value span => congrArg (Stmt.expression · span) (value.rename_same h)
  | .print value span => congrArg (Stmt.print · span) (value.rename_same h)
  | .block body span => congrArg (Stmt.block · span) (Decl.renameAll_same h.cons body)
  | .ifThenElse condition thenBranch none span =>
      congrArg₂ (Stmt.ifThenElse · · none span) (condition.rename_same h)
        (thenBranch.rename_same h)
  | .ifThenElse condition thenBranch (some elseBranch) span => by
      unfold Stmt.rename
      rw [condition.rename_same h, Plan.below_same, Plan.below_same, thenBranch.rename_same h,
        elseBranch.rename_same h]
  | .whileLoop condition body increment span => by
      unfold Stmt.rename
      rw [condition.rename_same h, Plan.below_same, body.rename_same h,
        Expr.renameOption_same h]
  | .break _ | .continue _ => rfl
  | .return value span => congrArg (Stmt.return · span) (Expr.renameOption_same h value)

theorem Decl.rename_same {fs : List Naming} (h : AllSame fs) : (d : Decl) → d.rename .same fs = d
  | .var name initial span => by
      unfold Decl.rename
      rw [h.headD, Expr.renameOption_same h]
      rfl
  | .function decl => congrArg Decl.function (decl.rename_same h)
  | .class name superclass methods span => by
      have hsuper : superclass.map (·.rename fs) = superclass := by
        cases superclass with
        | none => rfl
        | some use => exact congrArg some (use.rename_same h)
      unfold Decl.rename
      rw [hsuper, Plan.next_same, FunctionDecl.renameAll_same (h.ofClass _)]
  | .stmt s => congrArg Decl.stmt (s.rename_same h)

theorem Decl.renameAll_same {fs : List Naming} (h : AllSame fs) :
    (ds : List Decl) → Decl.renameAll .same fs ds = ds
  | [] => rfl
  | d :: ds => by
      unfold Decl.renameAll
      rw [Plan.below_same, Plan.next_same, d.rename_same h, Decl.renameAll_same h ds]

theorem FunctionDecl.rename_same {fs : List Naming} (h : AllSame fs) :
    (f : FunctionDecl) → f.rename .same fs = f
  | ⟨name, params, body, span⟩ =>
      congrArg₂ (FunctionDecl.mk name · · span) (Param.renameAll_same params)
        (Decl.renameAll_same h.cons body)

theorem FunctionDecl.renameAll_same {fs : List Naming} (h : AllSame fs) :
    (functions : List FunctionDecl) → FunctionDecl.renameAll .same fs functions = functions
  | [] => rfl
  | f :: rest => by
      unfold FunctionDecl.renameAll
      rw [Plan.below_same, Plan.next_same, f.rename_same h, FunctionDecl.renameAll_same h rest]

end

/-- **Without other names a program is the same.** -/
theorem Program.rename_same (p : Program) : p.rename .same = p := by
  have hglobal : AllSame [.same] := fun f hf => List.mem_singleton.1 hf
  unfold Program.rename
  rw [Decl.renameAll_same hglobal]

end Lox
