import Lox.Resolution
import Lox.Proofs.Parsing.Names

/-!
# Resolution binds no names

Resolution writes depths into a tree and changes nothing else of it. So a tree that binds no reserved
name binds none with its depths either.

## Contents
- `Expr.ordinary_resolve`, `Stmt.ordinary_resolve`, `Decl.ordinary_resolve`: trees with their depths.
-/

namespace Lox

mutual

theorem Expr.ordinary_resolve (kind : ClassKind) (scopes : Scopes) :
    (e : Expr) → e.Ordinary → (e.resolve kind scopes).value.Ordinary
  | .literal _ _, _ => trivial
  | .grouping inner _, h => inner.ordinary_resolve kind scopes h
  | .unary _ operand _, h => operand.ordinary_resolve kind scopes h
  | .binary _ left right _, h =>
    ⟨left.ordinary_resolve kind scopes h.1, right.ordinary_resolve kind scopes h.2⟩
  | .logical _ left right _, h =>
    ⟨left.ordinary_resolve kind scopes h.1, right.ordinary_resolve kind scopes h.2⟩
  | .variable _, _ => trivial
  | .assign _ _ value _, h => ⟨h.1, value.ordinary_resolve kind scopes h.2⟩
  | .call callee args _, h =>
    ⟨callee.ordinary_resolve kind scopes h.1, Expr.ordinaryAll_resolve kind scopes args h.2⟩
  | .get object _ _, h => object.ordinary_resolve kind scopes h
  | .set object _ value _, h =>
    ⟨object.ordinary_resolve kind scopes h.1, value.ordinary_resolve kind scopes h.2⟩
  | .this _ _, _ => by cases kind <;> trivial
  | .super _ _ _, _ => by cases kind <;> trivial

theorem Expr.ordinaryAll_resolve (kind : ClassKind) (scopes : Scopes) :
    (es : List Expr) → Expr.OrdinaryAll es →
      Expr.OrdinaryAll (Expr.resolveAll kind scopes es).value
  | [], _ => trivial
  | e :: es, h =>
    ⟨e.ordinary_resolve kind scopes h.1, Expr.ordinaryAll_resolve kind scopes es h.2⟩

end

theorem Expr.ordinaryOption_resolve (kind : ClassKind) (scopes : Scopes) {e : Option Expr}
    (h : Expr.OrdinaryOption e) :
    Expr.OrdinaryOption (Expr.resolveOption kind scopes e).value := by
  cases e with
  | none => trivial
  | some e => exact e.ordinary_resolve kind scopes h

mutual

theorem Stmt.ordinary_resolve (a : Surroundings) (scopes : Scopes) :
    (s : Stmt) → s.Ordinary → (s.resolve a scopes).value.Ordinary
  | .expression value _, h => value.ordinary_resolve a.enclosingClass scopes h
  | .print value _, h => value.ordinary_resolve a.enclosingClass scopes h
  | .block body _, h => Decl.ordinaryAll_resolve a scopes.enter body h
  | .ifThenElse condition thenBranch none _, h =>
    ⟨condition.ordinary_resolve a.enclosingClass scopes h.1,
      thenBranch.ordinary_resolve a scopes h.2⟩
  | .ifThenElse condition thenBranch (some elseBranch) _, h =>
    ⟨condition.ordinary_resolve a.enclosingClass scopes h.1,
      thenBranch.ordinary_resolve a scopes h.2.1, elseBranch.ordinary_resolve a scopes h.2.2⟩
  | .whileLoop condition body _ _, h =>
    ⟨condition.ordinary_resolve a.enclosingClass scopes h.1,
      body.ordinary_resolve { a with inLoop := true } scopes h.2.1,
      Expr.ordinaryOption_resolve a.enclosingClass scopes h.2.2⟩
  | .break _, _ => trivial
  | .continue _, _ => trivial
  | .return _ _, h => Expr.ordinaryOption_resolve a.enclosingClass scopes h

theorem Decl.ordinary_resolve (a : Surroundings) (scopes : Scopes) :
    (d : Decl) → d.Ordinary → (d.resolve a scopes).value.Ordinary
  | .var name _ _, h =>
    ⟨h.1, Expr.ordinaryOption_resolve a.enclosingClass (scopes.declare name) h.2⟩
  | .function decl, h => decl.ordinary_resolve a (scopes.define decl.name) .function h
  | .class _ _ methods _, h => ⟨h.1, FunctionDecl.ordinaryAll_resolve _ _ methods h.2⟩
  | .stmt s, h => s.ordinary_resolve a scopes h

theorem Decl.ordinaryAll_resolve (a : Surroundings) (scopes : Scopes) :
    (ds : List Decl) → Decl.OrdinaryAll ds →
      Decl.OrdinaryAll (Decl.resolveAll a scopes ds).value
  | [], _ => trivial
  | d :: ds, h =>
    ⟨d.ordinary_resolve a scopes h.1, Decl.ordinaryAll_resolve a (scopes.behind d) ds h.2⟩

theorem FunctionDecl.ordinary_resolve (a : Surroundings) (scopes : Scopes) (kind : FunctionKind) :
    (f : FunctionDecl) → f.Ordinary → (f.resolve a scopes kind).value.Ordinary
  | ⟨_, params, body, _⟩, h =>
    ⟨h.1, h.2.1, Decl.ordinaryAll_resolve (a.inFunction kind)
      (Param.resolveAll scopes.enter params).value body h.2.2⟩

theorem FunctionDecl.ordinaryAll_resolve (a : Surroundings) (scopes : Scopes) :
    (fs : List FunctionDecl) → FunctionDecl.OrdinaryAll fs →
      FunctionDecl.OrdinaryAll (FunctionDecl.resolveAll a scopes fs).value
  | [], _ => trivial
  | f :: fs, h =>
    ⟨f.ordinary_resolve a scopes (methodKind f.name) h.1,
      FunctionDecl.ordinaryAll_resolve a scopes fs h.2⟩

end

end Lox
