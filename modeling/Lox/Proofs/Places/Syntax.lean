import Lox.Proofs.Parsing.Steps
import Lox.Resolution

/-!
# Moving syntax to other places

A text that stands behind another one is read as the same tree at other places. To relocate a tree is
to put every location in it where a function says. A relocation touches nothing but places, and
relocating twice is relocating once by the composed function.

## Contents
- `Token.relocate`, `Expr.relocate`, `Stmt.relocate`, `Decl.relocate`, `Program.relocate`: trees at
  other places.
- `relocate_id`, `relocate_relocate`: relocation respects identity and composition.
-/

namespace Lox

variable (move : Location → Location)

/-! ## Relocation -/

/-- A span at another place. -/
def Span.relocate (span : Span) : Span := ⟨move span.start, move span.stop⟩

/-- A token at another place. -/
def Token.relocate (t : Token) : Token := { t with span := t.span.relocate move }

/-- A use of a name at another place. -/
def NameUse.relocate (use : NameUse) : NameUse := { use with span := use.span.relocate move }

/-- A parameter at another place. -/
def Param.relocate (p : Param) : Param := { p with span := p.span.relocate move }

mutual

/-- An expression at another place. -/
def Expr.relocate : Expr → Expr
  | .literal value span => .literal value (span.relocate move)
  | .grouping inner span => .grouping inner.relocate (span.relocate move)
  | .unary op operand span => .unary op operand.relocate (span.relocate move)
  | .binary op left right span => .binary op left.relocate right.relocate (span.relocate move)
  | .logical op left right span => .logical op left.relocate right.relocate (span.relocate move)
  | .variable use => .variable (use.relocate move)
  | .assign name depth value span => .assign name depth value.relocate (span.relocate move)
  | .call callee args span =>
    .call callee.relocate (Expr.relocateAll args) (span.relocate move)
  | .get object name span => .get object.relocate name (span.relocate move)
  | .set object name value span =>
    .set object.relocate name value.relocate (span.relocate move)
  | .this depth span => .this depth (span.relocate move)
  | .super depth method span => .super depth method (span.relocate move)

/-- Expressions at other places. -/
def Expr.relocateAll : List Expr → List Expr
  | [] => []
  | e :: es => e.relocate :: Expr.relocateAll es

end

mutual

/-- A statement at another place. -/
def Stmt.relocate : Stmt → Stmt
  | .expression value span => .expression (value.relocate move) (span.relocate move)
  | .print value span => .print (value.relocate move) (span.relocate move)
  | .block body span => .block (Decl.relocateAll body) (span.relocate move)
  | .ifThenElse condition thenBranch none span =>
    .ifThenElse (condition.relocate move) thenBranch.relocate none (span.relocate move)
  | .ifThenElse condition thenBranch (some elseBranch) span =>
    .ifThenElse (condition.relocate move) thenBranch.relocate (some elseBranch.relocate)
      (span.relocate move)
  | .whileLoop condition body increment span =>
    .whileLoop (condition.relocate move) body.relocate (increment.map (·.relocate move))
      (span.relocate move)
  | .break span => .break (span.relocate move)
  | .continue span => .continue (span.relocate move)
  | .return value span => .return (value.map (·.relocate move)) (span.relocate move)

/-- A declaration at another place. -/
def Decl.relocate : Decl → Decl
  | .var name initial span => .var name (initial.map (·.relocate move)) (span.relocate move)
  | .function decl => .function decl.relocate
  | .class name superclass methods span =>
    .class name (superclass.map (·.relocate move)) (FunctionDecl.relocateAll methods)
      (span.relocate move)
  | .stmt s => .stmt s.relocate

/-- Declarations at other places. -/
def Decl.relocateAll : List Decl → List Decl
  | [] => []
  | d :: ds => d.relocate :: Decl.relocateAll ds

/-- A function at another place. -/
def FunctionDecl.relocate : FunctionDecl → FunctionDecl
  | ⟨name, params, body, span⟩ =>
    ⟨name, params.map (·.relocate move), Decl.relocateAll body, span.relocate move⟩

/-- Functions at other places. -/
def FunctionDecl.relocateAll : List FunctionDecl → List FunctionDecl
  | [] => []
  | f :: fs => f.relocate :: FunctionDecl.relocateAll fs

end

/-- A program at another place. -/
def Program.relocate (p : Program) : Program :=
  ⟨Decl.relocateAll move p.body, p.span.relocate move⟩

/-- A static error at another place. -/
def StaticError.relocate (e : StaticError) : StaticError := { e with location := move e.location }

/-! ## What stays -/

@[simp] theorem Span.relocate_stop (span : Span) :
    (span.relocate move).stop = move span.stop := rfl

@[simp] theorem Token.relocate_kind (t : Token) : (t.relocate move).kind = t.kind := rfl

@[simp] theorem Token.relocate_literal (t : Token) : (t.relocate move).literal = t.literal := rfl

theorem Expr.relocateAll_eq_map (es : List Expr) :
    Expr.relocateAll move es = es.map (·.relocate move) := by
  induction es with
  | nil => rfl
  | cons e es ih => rw [Expr.relocateAll, ih, List.map_cons]

theorem Decl.relocateAll_eq_map (ds : List Decl) :
    Decl.relocateAll move ds = ds.map (·.relocate move) := by
  induction ds with
  | nil => rfl
  | cons d ds ih => rw [Decl.relocateAll, ih, List.map_cons]

theorem Decl.relocateAll_append (ds es : List Decl) :
    Decl.relocateAll move (ds ++ es) = Decl.relocateAll move ds ++ Decl.relocateAll move es := by
  simp only [relocateAll_eq_map, List.map_append]

theorem Decl.relocateAll_toList (d : Option Decl) :
    Decl.relocateAll move d.toList = (d.map (·.relocate move)).toList := by
  cases d <;> rfl

theorem FunctionDecl.relocateAll_eq_map (fs : List FunctionDecl) :
    FunctionDecl.relocateAll move fs = fs.map (·.relocate move) := by
  induction fs with
  | nil => rfl
  | cons f fs ih => rw [FunctionDecl.relocateAll, ih, List.map_cons]

@[simp] theorem Expr.span_relocate (e : Expr) :
    (e.relocate move).span = e.span.relocate move := by
  cases e <;> rfl

@[simp] theorem FunctionDecl.name_relocate (f : FunctionDecl) :
    (f.relocate move).name = f.name := by
  cases f
  rfl

@[simp] theorem FunctionDecl.params_relocate (f : FunctionDecl) :
    (f.relocate move).params = f.params.map (·.relocate move) := by
  cases f
  rfl

@[simp] theorem FunctionDecl.body_relocate (f : FunctionDecl) :
    (f.relocate move).body = Decl.relocateAll move f.body := by
  cases f
  rfl

@[simp] theorem FunctionDecl.span_relocate (f : FunctionDecl) :
    (f.relocate move).span = f.span.relocate move := by
  cases f
  rfl

namespace Parsing

theorem relocate_joinBinary (op : BinaryOp) (a b : Expr) :
    (joinBinary op a b).relocate move = joinBinary op (a.relocate move) (b.relocate move) := by
  simp only [joinBinary, Expr.relocate, Span.relocate, Expr.span_relocate]

theorem relocate_joinLogical (op : LogicalOp) (a b : Expr) :
    (joinLogical op a b).relocate move = joinLogical op (a.relocate move) (b.relocate move) := by
  simp only [joinLogical, Expr.relocate, Span.relocate, Expr.span_relocate]

theorem relocate_forBlock (initial : Option Decl) (condition increment : Option Expr)
    (loopBody : Stmt) (span : Span) :
    (forBlock initial condition increment loopBody span).relocate move =
      forBlock (initial.map (·.relocate move)) (condition.map (·.relocate move))
        (increment.map (·.relocate move)) (loopBody.relocate move) (span.relocate move) := by
  cases initial <;> cases condition <;> rfl

/-- At another place a primary expression begins with the same tokens, and what is read behind its
first token is the same at the other place. -/
theorem behindFirst_relocate {expression expression' : Parser Expr} {t : Token}
    {R : Parser Expr → Parser Expr → Prop} (hleaf : ∀ e, R (pure e) (pure (e.relocate move)))
    (hsuper : R (superMethod t.span.start) (superMethod (move t.span.start)))
    (hgrouping : R (grouping expression t.span.start)
      (grouping expression' (move t.span.start))) :
    (behindFirst expression t = none ∧ behindFirst expression' (t.relocate move) = none) ∨
      ∃ p q, behindFirst expression t = some p ∧
        behindFirst expression' (t.relocate move) = some q ∧ R p q := by
  unfold behindFirst
  rw [Token.relocate_kind]
  split
  case h_8 => exact .inr ⟨_, _, rfl, rfl, hsuper⟩
  case h_9 => exact .inr ⟨_, _, rfl, rfl, hgrouping⟩
  case h_10 => exact .inl ⟨rfl, rfl⟩
  all_goals exact .inr ⟨_, _, rfl, rfl, hleaf _⟩

end Parsing

/-! ## Identity -/

@[simp] theorem Span.relocate_id (span : Span) : span.relocate id = span := rfl

@[simp] theorem NameUse.relocate_id (use : NameUse) : use.relocate id = use := rfl

@[simp] theorem Param.relocate_id (p : Param) : p.relocate id = p := rfl

mutual

@[simp] theorem Expr.relocate_id (e : Expr) : e.relocate id = e := by
  cases e with
  | literal | «variable» | this | super => rfl
  | grouping inner span => simp [Expr.relocate, inner.relocate_id]
  | unary op operand span => simp [Expr.relocate, operand.relocate_id]
  | binary op left right span | logical op left right span =>
      simp [Expr.relocate, left.relocate_id, right.relocate_id]
  | assign name depth value span => simp [Expr.relocate, value.relocate_id]
  | call callee args span =>
      simp [Expr.relocate, callee.relocate_id, Expr.relocateAll_id args]
  | get object name span => simp [Expr.relocate, object.relocate_id]
  | set object name value span =>
      simp [Expr.relocate, object.relocate_id, value.relocate_id]

theorem Expr.relocateAll_id (es : List Expr) : Expr.relocateAll id es = es := by
  cases es with
  | nil => rfl
  | cons e es => rw [Expr.relocateAll, e.relocate_id, Expr.relocateAll_id es]

end

mutual

@[simp] theorem Stmt.relocate_id (s : Stmt) : s.relocate id = s := by
  cases s with
  | expression | print | «break» | «continue» | «return» => simp [Stmt.relocate]
  | block body span => simp [Stmt.relocate, Decl.relocateAll_id body]
  | ifThenElse condition thenBranch elseBranch span =>
      cases elseBranch with
      | none => simp [Stmt.relocate, thenBranch.relocate_id]
      | some s => simp [Stmt.relocate, thenBranch.relocate_id, s.relocate_id]
  | whileLoop condition body increment span => simp [Stmt.relocate, body.relocate_id]

theorem Decl.relocate_id (d : Decl) : d.relocate id = d := by
  cases d with
  | var => simp [Decl.relocate]
  | function decl => simp [Decl.relocate, decl.relocate_id]
  | «class» name superclass methods span =>
      cases superclass <;> simp [Decl.relocate, FunctionDecl.relocateAll_id methods]
  | stmt s => simp [Decl.relocate, s.relocate_id]

theorem Decl.relocateAll_id (ds : List Decl) : Decl.relocateAll id ds = ds := by
  cases ds with
  | nil => rfl
  | cons d ds => rw [Decl.relocateAll, d.relocate_id, Decl.relocateAll_id ds]

theorem FunctionDecl.relocate_id (f : FunctionDecl) : f.relocate id = f := by
  obtain ⟨name, params, body, span⟩ := f
  simp [FunctionDecl.relocate, Decl.relocateAll_id body]

theorem FunctionDecl.relocateAll_id (fs : List FunctionDecl) :
    FunctionDecl.relocateAll id fs = fs := by
  cases fs with
  | nil => rfl
  | cons f fs => rw [FunctionDecl.relocateAll, f.relocate_id, FunctionDecl.relocateAll_id fs]

end

theorem Program.relocate_id (p : Program) : p.relocate id = p := by
  unfold Program.relocate
  rw [Decl.relocateAll_id, Span.relocate_id]

/-! ## Composition -/

section Composition

variable (f g : Location → Location)

@[simp] theorem Span.relocate_relocate (span : Span) :
    (span.relocate f).relocate g = span.relocate (g ∘ f) := rfl

@[simp] theorem NameUse.relocate_relocate (use : NameUse) :
    (use.relocate f).relocate g = use.relocate (g ∘ f) := rfl

@[simp] theorem Param.relocate_relocate (p : Param) :
    (p.relocate f).relocate g = p.relocate (g ∘ f) := rfl

mutual

@[simp] theorem Expr.relocate_relocate (e : Expr) :
    (e.relocate f).relocate g = e.relocate (g ∘ f) := by
  cases e with
  | literal | «variable» | this | super => rfl
  | grouping inner span => simp [Expr.relocate, inner.relocate_relocate]
  | unary op operand span => simp [Expr.relocate, operand.relocate_relocate]
  | binary op left right span | logical op left right span =>
      simp [Expr.relocate, left.relocate_relocate, right.relocate_relocate]
  | assign name depth value span => simp [Expr.relocate, value.relocate_relocate]
  | call callee args span =>
      simp [Expr.relocate, callee.relocate_relocate, Expr.relocateAll_relocateAll args]
  | get object name span => simp [Expr.relocate, object.relocate_relocate]
  | set object name value span =>
      simp [Expr.relocate, object.relocate_relocate, value.relocate_relocate]

theorem Expr.relocateAll_relocateAll (es : List Expr) :
    Expr.relocateAll g (Expr.relocateAll f es) = Expr.relocateAll (g ∘ f) es := by
  cases es with
  | nil => rfl
  | cons e es =>
      simp only [Expr.relocateAll, e.relocate_relocate, Expr.relocateAll_relocateAll es]

end

@[simp] theorem Expr.map_relocate_relocate (e : Option Expr) :
    (e.map (·.relocate f)).map (·.relocate g) = e.map (·.relocate (g ∘ f)) := by
  cases e <;> simp

mutual

@[simp] theorem Stmt.relocate_relocate (s : Stmt) :
    (s.relocate f).relocate g = s.relocate (g ∘ f) := by
  cases s with
  | expression | print | «break» | «continue» | «return» =>
      simp only [Stmt.relocate, Expr.relocate_relocate, Expr.map_relocate_relocate,
        Span.relocate_relocate]
  | block body span => simp [Stmt.relocate, Decl.relocateAll_relocateAll body]
  | ifThenElse condition thenBranch elseBranch span =>
      cases elseBranch with
      | none => simp [Stmt.relocate, thenBranch.relocate_relocate]
      | some s => simp [Stmt.relocate, thenBranch.relocate_relocate, s.relocate_relocate]
  | whileLoop condition body increment span =>
      simp only [Stmt.relocate, Expr.relocate_relocate, Expr.map_relocate_relocate,
        Span.relocate_relocate, body.relocate_relocate]

theorem Decl.relocate_relocate (d : Decl) : (d.relocate f).relocate g = d.relocate (g ∘ f) := by
  cases d with
  | var =>
      simp only [Decl.relocate, Expr.map_relocate_relocate, Span.relocate_relocate]
  | function decl => simp [Decl.relocate, decl.relocate_relocate]
  | «class» name superclass methods span =>
      cases superclass <;> simp [Decl.relocate, FunctionDecl.relocateAll_relocateAll methods]
  | stmt s => simp [Decl.relocate, s.relocate_relocate]

theorem Decl.relocateAll_relocateAll (ds : List Decl) :
    Decl.relocateAll g (Decl.relocateAll f ds) = Decl.relocateAll (g ∘ f) ds := by
  cases ds with
  | nil => rfl
  | cons d ds =>
      simp only [Decl.relocateAll, d.relocate_relocate, Decl.relocateAll_relocateAll ds]

theorem FunctionDecl.relocate_relocate (d : FunctionDecl) :
    (d.relocate f).relocate g = d.relocate (g ∘ f) := by
  obtain ⟨name, params, body, span⟩ := d
  simp [FunctionDecl.relocate, Decl.relocateAll_relocateAll body]

theorem FunctionDecl.relocateAll_relocateAll (ds : List FunctionDecl) :
    FunctionDecl.relocateAll g (FunctionDecl.relocateAll f ds) =
      FunctionDecl.relocateAll (g ∘ f) ds := by
  cases ds with
  | nil => rfl
  | cons d ds =>
      simp only [FunctionDecl.relocateAll, d.relocate_relocate,
        FunctionDecl.relocateAll_relocateAll ds]

end

theorem Program.relocate_relocate (p : Program) :
    (p.relocate f).relocate g = p.relocate (g ∘ f) := by
  unfold Program.relocate
  rw [Decl.relocateAll_relocateAll, Span.relocate_relocate]

end Composition

end Lox
