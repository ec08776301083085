import Lox.Proofs.Places.Resolving

/-!
# Resolving trees at other places

The table of depths is kept by nodes, and a node is known by its way from the root of its tree. So the
walk that fills the table writes the same entries for a tree at other places, and finds the same errors
at the other places.

## Contents
- `Program.resolve_relocate`: the depths and the static errors of a program.
- `Recorder.Moves`: a walk that does at other places what another one does.
- `Expr.record_relocate`, `Stmt.record_relocate`, `Decl.record_relocate`: one for each kind of tree.
- `Resolutions.resolve_relocate`: the table behind a program.
-/

namespace Lox

variable {move : Location → Location}

open Checked

theorem Program.resolve_relocate (p : Program) :
    (p.relocate move).resolve = p.resolve.relocate move (·.relocate move) := by
  rw [Program.resolve_eq, Program.resolve_eq]
  unfold Program.relocate
  dsimp only
  rw [Decl.resolveAll_relocate]
  rfl

/-! ## Walks -/

variable {inputs : Nat}

/-- What a walk has done, at another place. -/
def Recording.relocate (move : Location → Location) (r : Recording inputs) : Recording inputs :=
  { r with errors := r.errors.map (·.relocate move) }

namespace Recorder

/-- The second walk does at other places what the first one does: the same entries, and the same errors
at the other places. -/
def Moves {α : Type} (move : Location → Location) (walk walk' : Recorder inputs α) : Prop :=
  ∀ r, walk' (r.relocate move) = ((walk r).1, (walk r).2.relocate move)

namespace Moves

variable {α β : Type} {walk walk' : Recorder inputs α}

theorem pure (a : α) : Moves move (Pure.pure a : Recorder inputs α) (Pure.pure a) := fun _ => rfl

/-- **Sequencing.** -/
theorem bind {k k' : α → Recorder inputs β} (h : Moves move walk walk')
    (hk : ∀ a, Moves move (k a) (k' a)) : Moves move (walk >>= k) (walk' >>= k') := by
  intro r
  show k' (walk' (r.relocate move)).1 (walk' (r.relocate move)).2 = _
  rw [h r]
  exact hk _ _

theorem note (node : Node inputs) (depth : Option Nat) :
    Moves move (Recorder.note node depth) (Recorder.note node depth) := by
  intro r
  cases depth with
  | none => rfl
  | some depth => rfl

theorem ofChecked {x x' : Checked α} (h : x' = x.relocate move id) :
    Moves move (ofChecked x : Recorder inputs α) (ofChecked x') := by
  intro r
  rw [h]
  show (x.value, (⟨r.locals, r.errors.map (·.relocate move) ++ x.errors.map (·.relocate move)⟩ :
    Recording inputs)) = _
  rw [← List.map_append]
  rfl

theorem reportIf (condition : Bool) (span : Span) (cause : StaticError.Cause) :
    Moves move (Recorder.ofChecked (Checked.reportIf condition span cause) : Recorder inputs Unit)
      (Recorder.ofChecked (Checked.reportIf condition (span.relocate move) cause)) :=
  ofChecked (reportIf_relocate _ _ _)

end Moves

end Recorder

open Recorder

theorem NameUse.record_relocate (scopes : Scopes) (node : Node inputs) (use : NameUse) :
    Moves move (use.record scopes node) ((use.relocate move).record scopes node) :=
  (Moves.reportIf _ use.span _).bind fun _ => .note node _

/-! ## Expressions -/

mutual

theorem Expr.record_relocate (kind : ClassKind) (scopes : Scopes) (node : Node inputs) (e : Expr) :
    Moves move (e.record kind scopes node) ((e.relocate move).record kind scopes node) := by
  cases e with
  | literal value span => exact .pure ()
  | grouping inner span => exact inner.record_relocate kind scopes _
  | unary op operand span => exact operand.record_relocate kind scopes _
  | binary op left right span | logical op left right span =>
      exact (left.record_relocate kind scopes _).bind fun _ => right.record_relocate kind scopes _
  | «variable» use => exact use.record_relocate scopes node
  | assign name depth value span =>
      exact (value.record_relocate kind scopes _).bind fun _ => .note node _
  | call callee args span =>
      exact (callee.record_relocate kind scopes _).bind fun _ =>
        Expr.recordAll_relocate kind scopes node 1 args
  | get object name span => exact object.record_relocate kind scopes _
  | set object name value span =>
      exact (value.record_relocate kind scopes _).bind fun _ => object.record_relocate kind scopes _
  | this depth span =>
      cases kind with
      | none => exact .ofChecked rfl
      | base | derived => exact .note node _
  | super depth method span =>
      cases kind with
      | none | base => exact .ofChecked rfl
      | derived => exact .note node _

theorem Expr.recordAll_relocate (kind : ClassKind) (scopes : Scopes) (node : Node inputs) (i : Nat)
    (es : List Expr) : Moves move (Expr.recordAll kind scopes node i es)
      (Expr.recordAll kind scopes node i (Expr.relocateAll move es)) := by
  cases es with
  | nil => exact .pure ()
  | cons e es =>
      exact (e.record_relocate kind scopes _).bind fun _ =>
        Expr.recordAll_relocate kind scopes node (i + 1) es

end

theorem Expr.recordOption_relocate (kind : ClassKind) (scopes : Scopes) (node : Node inputs)
    (e : Option Expr) : Moves move (Expr.recordOption kind scopes node e)
      (Expr.recordOption kind scopes node (e.map (·.relocate move))) := by
  cases e with
  | none => exact .pure ()
  | some e => exact e.record_relocate kind scopes node

/-! ## Statements and declarations -/

theorem recordSuperclass_relocate (scopes : Scopes) (name : String) (node : Node inputs)
    (superclass : Option NameUse) : Moves move (recordSuperclass scopes name node superclass)
      (recordSuperclass scopes name node (superclass.map (·.relocate move))) := by
  cases superclass with
  | none => exact .pure ()
  | some use =>
      exact (Moves.reportIf _ use.span _).bind fun _ => use.record_relocate scopes node

theorem Moves.checkNew (scopes : Scopes) (name : String) (span : Span) :
    Moves move (ofChecked (Lox.checkNew scopes name span) : Recorder inputs Unit)
      (ofChecked (Lox.checkNew scopes name (span.relocate move))) :=
  .reportIf _ span _

mutual

theorem Stmt.record_relocate (around : Surroundings) (scopes : Scopes) (node : Node inputs)
    (s : Stmt) :
    Moves move (s.record around scopes node) ((s.relocate move).record around scopes node) := by
  cases s with
  | expression value span | print value span => exact value.record_relocate _ scopes _
  | block body span => exact Decl.recordAll_relocate around scopes.enter node 0 body
  | ifThenElse condition thenBranch elseBranch span =>
      cases elseBranch with
      | none =>
          exact (condition.record_relocate _ scopes _).bind fun _ =>
            thenBranch.record_relocate around scopes _
      | some s =>
          exact (condition.record_relocate _ scopes _).bind fun _ =>
            (thenBranch.record_relocate around scopes _).bind fun _ =>
              s.record_relocate around scopes _
  | whileLoop condition body increment span =>
      exact (condition.record_relocate _ scopes _).bind fun _ =>
        (body.record_relocate _ scopes _).bind fun _ =>
          Expr.recordOption_relocate _ scopes _ increment
  | «break» span | «continue» span => exact .reportIf _ span _
  | «return» value span =>
      refine (Moves.reportIf _ span _).bind fun _ => ?_
      rw [Option.isSome_map]
      exact (Moves.reportIf _ span _).bind fun _ => Expr.recordOption_relocate _ scopes _ value

theorem Decl.record_relocate (around : Surroundings) (scopes : Scopes) (node : Node inputs)
    (d : Decl) :
    Moves move (d.record around scopes node) ((d.relocate move).record around scopes node) := by
  cases d with
  | var name initial span =>
      exact (Moves.checkNew scopes name span).bind fun _ =>
        Expr.recordOption_relocate _ _ _ initial
  | function decl =>
      simp only [Decl.relocate, Decl.record, FunctionDecl.name_relocate,
        FunctionDecl.span_relocate]
      exact (Moves.checkNew scopes decl.name decl.span).bind fun _ =>
        decl.record_relocate around _ _ node
  | «class» name superclass methods span =>
      simp only [Decl.relocate, Decl.record, Option.isSome_map]
      exact (Moves.checkNew scopes name span).bind fun _ =>
        (recordSuperclass_relocate _ name _ superclass).bind fun _ =>
          FunctionDecl.recordAll_relocate _ _ node 1 methods
  | stmt s => exact s.record_relocate around scopes node

theorem Decl.recordAll_relocate (around : Surroundings) (scopes : Scopes) (node : Node inputs)
    (i : Nat) (ds : List Decl) : Moves move (Decl.recordAll around scopes node i ds)
      (Decl.recordAll around scopes node i (Decl.relocateAll move ds)) := by
  cases ds with
  | nil => exact .pure ()
  | cons d ds =>
      simp only [Decl.relocateAll, Decl.recordAll, Scopes.behind_relocate]
      exact (d.record_relocate around scopes _).bind fun _ =>
        Decl.recordAll_relocate around _ node (i + 1) ds

theorem FunctionDecl.record_relocate (around : Surroundings) (scopes : Scopes)
    (kind : FunctionKind) (node : Node inputs) (f : FunctionDecl) :
    Moves move (f.record around scopes kind node) ((f.relocate move).record around scopes kind node) := by
  obtain ⟨name, params, body, span⟩ := f
  simp only [FunctionDecl.relocate, FunctionDecl.record]
  exact (Moves.ofChecked (Param.resolveAll_relocate _ params)).bind fun scopes' =>
    Decl.recordAll_relocate _ scopes' node 0 body

theorem FunctionDecl.recordAll_relocate (around : Surroundings) (scopes : Scopes)
    (node : Node inputs) (i : Nat) (fs : List FunctionDecl) :
    Moves move (FunctionDecl.recordAll around scopes node i fs)
      (FunctionDecl.recordAll around scopes node i (FunctionDecl.relocateAll move fs)) := by
  cases fs with
  | nil => exact .pure ()
  | cons f fs =>
      simp only [FunctionDecl.relocateAll, FunctionDecl.recordAll, FunctionDecl.name_relocate]
      exact (f.record_relocate around scopes _ _).bind fun _ =>
        FunctionDecl.recordAll_relocate around scopes node (i + 1) fs

end

/-! ## The table of a session -/

variable (move) in
/-- **The same program at other places** adds the same entries to the table, and has the same depths
and the same errors at the other places. -/
theorem Resolutions.resolve_relocate (r : Resolutions) (p : Program) :
    (r.resolve (p.relocate move)).1 = (r.resolve p).1.relocate move (·.relocate move) ∧
      (r.resolve (p.relocate move)).2 = (r.resolve p).2 := by
  constructor
  · rw [r.resolve_fst, r.resolve_fst, p.resolve_relocate]
  · have hwalks : Moves move (p.record (Node.root r.inputs))
        (Decl.recordAll .topLevel [] (Node.root r.inputs) 0 (Decl.relocateAll move p.body)) :=
      Decl.recordAll_relocate .topLevel [] (Node.root r.inputs) 0 p.body
    have hwalk := hwalks ⟨r.locals.next, []⟩
    unfold Resolutions.resolve
    dsimp only [Program.record, Program.relocate]
    change Decl.recordAll .topLevel [] (Node.root r.inputs) 0 (Decl.relocateAll move p.body)
      ⟨r.locals.next, []⟩ = _ at hwalk
    rw [hwalk]
    rfl

end Lox
