import Lox.Proofs.Places.Parsing
import Lox.Proofs.Scoping.Sessions

/-!
# Resolving a text behind another one

Resolution takes the place of a static error from the tree, and looks at no place. The scopes that it
keeps are local ones; between two declarations of a program there is none, so a program is resolved
declaration by declaration. Hence a source text in front of another one is compiled as if it stood
alone, and so is the other one, further down.

## Contents
- `Checked.relocate`: what a check finds, at another place.
- `Expr.resolve_relocate`, `Stmt.resolve_relocate`, `Decl.resolve_relocate`: one for each kind of tree.
- `Decl.resolveAll_append`: resolution at the top level.
- `compile_append_line`: two texts that are joined by a line feed.
-/

namespace Lox

/-- What a check finds, at another place; `f` moves its value there. -/
def Checked.relocate {α β : Type} (move : Location → Location) (f : α → β) (x : Checked α) :
    Checked β :=
  ⟨f x.value, x.errors.map (·.relocate move)⟩

variable {move : Location → Location}

open Checked

namespace Checked

variable {α β γ δ : Type}

/-- Sequencing. -/
theorem bind_relocate {f : α → β} {g : γ → δ} {x : Checked α} {k : α → Checked γ}
    {k' : β → Checked δ} (h : ∀ a, k' (f a) = (k a).relocate move g) :
    (x.relocate move f >>= k') = (x >>= k).relocate move g := by
  show (⟨(k' (f x.value)).value, x.errors.map (·.relocate move) ++ (k' (f x.value)).errors⟩ :
    Checked δ) = ⟨g (k x.value).value, (x.errors ++ (k x.value).errors).map (·.relocate move)⟩
  rw [h, List.map_append]
  rfl

theorem reportIf_relocate (condition : Bool) (span : Span) (cause : StaticError.Cause) :
    reportIf condition (span.relocate move) cause =
      (reportIf condition span cause).relocate move id := by
  cases condition <;> rfl

end Checked

theorem NameUse.resolve_relocate (scopes : Scopes) (use : NameUse) :
    (use.relocate move).resolve scopes =
      (use.resolve scopes).relocate move (·.relocate move) := by
  unfold NameUse.resolve
  dsimp only [NameUse.relocate]
  rw [reportIf_relocate]
  exact bind_relocate fun _ => rfl

/-! ## Expressions -/

mutual

theorem Expr.resolve_relocate (kind : ClassKind) (scopes : Scopes) (e : Expr) :
    (e.relocate move).resolve kind scopes =
      (e.resolve kind scopes).relocate move (·.relocate move) := by
  cases e with
  | literal value span => rfl
  | grouping inner span =>
      simp only [Expr.relocate, Expr.resolve]
      rw [inner.resolve_relocate]
      exact bind_relocate fun _ => rfl
  | unary op operand span =>
      simp only [Expr.relocate, Expr.resolve]
      rw [operand.resolve_relocate]
      exact bind_relocate fun _ => rfl
  | binary op left right span | logical op left right span =>
      simp only [Expr.relocate, Expr.resolve]
      rw [left.resolve_relocate, right.resolve_relocate]
      exact bind_relocate fun _ => bind_relocate fun _ => rfl
  | «variable» use =>
      simp only [Expr.relocate, Expr.resolve]
      rw [use.resolve_relocate]
      exact bind_relocate fun _ => rfl
  | assign name depth value span =>
      simp only [Expr.relocate, Expr.resolve]
      rw [value.resolve_relocate]
      exact bind_relocate fun _ => rfl
  | call callee args span =>
      simp only [Expr.relocate, Expr.resolve]
      rw [callee.resolve_relocate, Expr.resolveAll_relocate kind scopes args]
      exact bind_relocate fun _ => bind_relocate fun _ => rfl
  | get object name span =>
      simp only [Expr.relocate, Expr.resolve]
      rw [object.resolve_relocate]
      exact bind_relocate fun _ => rfl
  | set object name value span =>
      simp only [Expr.relocate, Expr.resolve]
      rw [object.resolve_relocate, value.resolve_relocate]
      exact bind_relocate fun _ => bind_relocate fun _ => rfl
  | this depth span => cases kind <;> rfl
  | super depth method span => cases kind <;> rfl

theorem Expr.resolveAll_relocate (kind : ClassKind) (scopes : Scopes) (es : List Expr) :
    Expr.resolveAll kind scopes (Expr.relocateAll move es) =
      (Expr.resolveAll kind scopes es).relocate move (Expr.relocateAll move) := by
  cases es with
  | nil => rfl
  | cons e es =>
      simp only [Expr.relocateAll, Expr.resolveAll]
      rw [e.resolve_relocate, Expr.resolveAll_relocate kind scopes es]
      exact bind_relocate fun _ => bind_relocate fun _ => rfl

end

theorem Expr.resolveOption_relocate (kind : ClassKind) (scopes : Scopes) (e : Option Expr) :
    Expr.resolveOption kind scopes (e.map (·.relocate move)) =
      (Expr.resolveOption kind scopes e).relocate move (Option.map (·.relocate move)) := by
  cases e with
  | none => rfl
  | some e =>
      simp only [Option.map_some, Expr.resolveOption]
      rw [e.resolve_relocate]
      exact bind_relocate fun _ => rfl

/-! ## Statements and declarations -/

theorem checkNew_relocate (scopes : Scopes) (name : String) (span : Span) :
    checkNew scopes name (span.relocate move) = (checkNew scopes name span).relocate move id :=
  reportIf_relocate _ _ _

theorem Param.resolveAll_relocate (scopes : Scopes) (params : List Param) :
    Param.resolveAll scopes (params.map (·.relocate move)) =
      (Param.resolveAll scopes params).relocate move id := by
  induction params generalizing scopes with
  | nil => rfl
  | cons p ps ih =>
      simp only [List.map_cons, Param.resolveAll]
      dsimp only [Param.relocate]
      rw [checkNew_relocate]
      exact bind_relocate fun _ => ih _

theorem resolveSuperclass_relocate (scopes : Scopes) (name : String)
    (superclass : Option NameUse) :
    resolveSuperclass scopes name (superclass.map (·.relocate move)) =
      (resolveSuperclass scopes name superclass).relocate move (Option.map (·.relocate move)) := by
  cases superclass with
  | none => rfl
  | some use =>
      simp only [Option.map_some, resolveSuperclass]
      rw [use.resolve_relocate]
      dsimp only [NameUse.relocate]
      rw [reportIf_relocate]
      exact bind_relocate fun _ => bind_relocate fun _ => rfl

theorem Scopes.behind_relocate (scopes : Scopes) (d : Decl) :
    scopes.behind (d.relocate move) = scopes.behind d := by
  have hname : (d.relocate move).name? = d.name? := by
    cases d with
    | function decl => exact congrArg some (decl.name_relocate move)
    | var | «class» | stmt => rfl
  unfold Scopes.behind
  rw [hname]

mutual

theorem Stmt.resolve_relocate (around : Surroundings) (scopes : Scopes) (s : Stmt) :
    (s.relocate move).resolve around scopes =
      (s.resolve around scopes).relocate move (·.relocate move) := by
  cases s with
  | expression value span | print value span =>
      simp only [Stmt.relocate, Stmt.resolve]
      rw [value.resolve_relocate]
      exact bind_relocate fun _ => rfl
  | block body span =>
      simp only [Stmt.relocate, Stmt.resolve]
      rw [Decl.resolveAll_relocate around scopes.enter body]
      exact bind_relocate fun _ => rfl
  | ifThenElse condition thenBranch elseBranch span =>
      cases elseBranch with
      | none =>
          simp only [Stmt.relocate, Stmt.resolve]
          rw [condition.resolve_relocate, thenBranch.resolve_relocate]
          exact bind_relocate fun _ => bind_relocate fun _ => rfl
      | some s =>
          simp only [Stmt.relocate, Stmt.resolve]
          rw [condition.resolve_relocate, thenBranch.resolve_relocate, s.resolve_relocate]
          exact bind_relocate fun _ => bind_relocate fun _ => bind_relocate fun _ => rfl
  | whileLoop condition body increment span =>
      simp only [Stmt.relocate, Stmt.resolve]
      rw [condition.resolve_relocate, body.resolve_relocate, Expr.resolveOption_relocate]
      exact bind_relocate fun _ => bind_relocate fun _ => bind_relocate fun _ => rfl
  | «break» span | «continue» span =>
      simp only [Stmt.relocate, Stmt.resolve]
      rw [reportIf_relocate]
      exact bind_relocate fun _ => rfl
  | «return» value span =>
      simp only [Stmt.relocate, Stmt.resolve]
      rw [reportIf_relocate, reportIf_relocate, Expr.resolveOption_relocate, Option.isSome_map]
      exact bind_relocate fun _ => bind_relocate fun _ => bind_relocate fun _ => rfl

theorem Decl.resolve_relocate (around : Surroundings) (scopes : Scopes) (d : Decl) :
    (d.relocate move).resolve around scopes =
      (d.resolve around scopes).relocate move (·.relocate move) := by
  cases d with
  | var name initial span =>
      simp only [Decl.relocate, Decl.resolve]
      rw [checkNew_relocate, Expr.resolveOption_relocate]
      exact bind_relocate fun _ => bind_relocate fun _ => rfl
  | function decl =>
      simp only [Decl.relocate, Decl.resolve, FunctionDecl.name_relocate,
        FunctionDecl.span_relocate]
      rw [checkNew_relocate, decl.resolve_relocate]
      exact bind_relocate fun _ => bind_relocate fun _ => rfl
  | «class» name superclass methods span =>
      simp only [Decl.relocate, Decl.resolve]
      rw [checkNew_relocate, resolveSuperclass_relocate]
      refine bind_relocate fun _ => bind_relocate fun superclass' => ?_
      simp only [Option.isSome_map]
      rw [FunctionDecl.resolveAll_relocate]
      exact bind_relocate fun _ => rfl
  | stmt s =>
      simp only [Decl.relocate, Decl.resolve]
      rw [s.resolve_relocate]
      exact bind_relocate fun _ => rfl

theorem Decl.resolveAll_relocate (around : Surroundings) (scopes : Scopes) (ds : List Decl) :
    Decl.resolveAll around scopes (Decl.relocateAll move ds) =
      (Decl.resolveAll around scopes ds).relocate move (Decl.relocateAll move) := by
  cases ds with
  | nil => rfl
  | cons d ds =>
      simp only [Decl.relocateAll, Decl.resolveAll]
      rw [d.resolve_relocate, Scopes.behind_relocate, Decl.resolveAll_relocate around _ ds]
      exact bind_relocate fun _ => bind_relocate fun _ => rfl

theorem FunctionDecl.resolve_relocate (around : Surroundings) (scopes : Scopes)
    (kind : FunctionKind) (f : FunctionDecl) :
    (f.relocate move).resolve around scopes kind =
      (f.resolve around scopes kind).relocate move (·.relocate move) := by
  obtain ⟨name, params, body, span⟩ := f
  simp only [FunctionDecl.relocate, FunctionDecl.resolve]
  rw [Param.resolveAll_relocate]
  refine bind_relocate fun scopes' => ?_
  rw [id, Decl.resolveAll_relocate _ scopes' body]
  exact bind_relocate fun _ => rfl

theorem FunctionDecl.resolveAll_relocate (around : Surroundings) (scopes : Scopes)
    (fs : List FunctionDecl) :
    FunctionDecl.resolveAll around scopes (FunctionDecl.relocateAll move fs) =
      (FunctionDecl.resolveAll around scopes fs).relocate move (FunctionDecl.relocateAll move) := by
  cases fs with
  | nil => rfl
  | cons f fs =>
      simp only [FunctionDecl.relocateAll, FunctionDecl.resolveAll, FunctionDecl.name_relocate]
      rw [f.resolve_relocate, FunctionDecl.resolveAll_relocate around scopes fs]
      exact bind_relocate fun _ => bind_relocate fun _ => rfl

end

/-! ## The top level -/

/-- **No scope is open between two declarations of a program.** -/
theorem Decl.resolveAll_append (around : Surroundings) (ds es : List Decl) :
    Decl.resolveAll around [] (ds ++ es) =
      ⟨(Decl.resolveAll around [] ds).value ++ (Decl.resolveAll around [] es).value,
        (Decl.resolveAll around [] ds).errors ++ (Decl.resolveAll around [] es).errors⟩ := by
  induction ds with
  | nil => rfl
  | cons d ds ih =>
      have hcons (fs : List Decl) : Decl.resolveAll around [] (d :: fs) =
          ⟨(d.resolve around []).value :: (Decl.resolveAll around [] fs).value,
            (d.resolve around []).errors ++ (Decl.resolveAll around [] fs).errors⟩ := by
        rw [Decl.resolveAll, Scopes.behind_nil]
        show (⟨_, _ ++ (_ ++ [])⟩ : Checked (List Decl)) = _
        rw [List.append_nil]
        rfl
      rw [List.cons_append, hcons, hcons, ih]
      simp only [List.cons_append, List.append_assoc]

theorem Program.resolve_eq (p : Program) :
    p.resolve = ⟨⟨(Decl.resolveAll .topLevel [] p.body).value, p.span⟩,
      (Decl.resolveAll .topLevel [] p.body).errors⟩ := by
  show (⟨_, _ ++ []⟩ : Checked Program) = _
  rw [List.append_nil]
  rfl

/-! ## Source texts -/

/-- **A source text is compiled as if nothing stood behind it, and nothing in front of it.** -/
theorem compile_append_line {p q : List Char} {P Q : Program} (hP : compile p = .ok P)
    (hQ : compile q = .ok Q) :
    ∃ R, compile (p ++ '\n' :: q) = .ok R ∧
      R.body = P.body ++ (Q.relocate (Location.behind p)).body := by
  obtain ⟨P', hparse, herrors, rfl⟩ := (Scoping.compile_eq_ok p P).1 hP
  obtain ⟨Q', hparse', herrors', rfl⟩ := (Scoping.compile_eq_ok q Q).1 hQ
  obtain ⟨R', hjoined, hbody⟩ := Parsing.parse_append_line hparse hparse'
  have hresolve : R'.resolve =
      ⟨⟨P'.resolve.value.body ++ Decl.relocateAll (Location.behind p) Q'.resolve.value.body, R'.span⟩,
        P'.resolve.errors ++ Q'.resolve.errors.map (·.relocate (Location.behind p))⟩ := by
    rw [R'.resolve_eq, P'.resolve_eq, Q'.resolve_eq, hbody, Decl.resolveAll_append,
      Decl.resolveAll_relocate]
    rfl
  refine ⟨R'.resolve.value, (Scoping.compile_eq_ok _ _).2 ⟨R', hjoined, ?_, rfl⟩, ?_⟩
  · rw [hresolve, herrors, herrors']
    rfl
  · rw [hresolve]
    rfl

end Lox
