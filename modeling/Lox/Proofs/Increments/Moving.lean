import Lox.Proofs.Scoping.Static

/-!
# Increments behind bodies

The increment of a `for` stays at the loop, so that a round that ends early by `continue` does not skip
it. When the body has no `continue` of its own, the increment might as well stand behind the body, in a
block of both. What stands in the body is one scope further away then from everything outside of the
loop. To the static rules this makes no difference: they look at the innermost scope and at what a
piece of program stands in, and a block without declarations changes neither.

## Contents
- `Stmt.continues`: a `continue` that ends a round of the loop around.
- `Stmt.Moved`, `Decl.Moved`, `Program.Moved`: trees with increments behind bodies.
- `Program.moveIncrements`, `Program.moved_moveIncrements`: all of them moved that may be.
- `refl`, `all`, `behind_eq`, `name_eq`: what the trees have in common.
- `Stmt.Moved.errors_resolve`, `Program.Moved.errors_resolve`: the static errors.
-/

namespace Lox

/-! ## Jumps to the next round -/

mutual

/-- Whether a statement has a `continue` that ends a round of the loop around it. One inside a loop or a
function of the statement belongs to that loop, or to one in that function. -/
def Stmt.continues : Stmt → Bool
  | .continue _ => true
  | .block body _ => Decl.anyContinues body
  | .ifThenElse _ thenBranch none _ => thenBranch.continues
  | .ifThenElse _ thenBranch (some elseBranch) _ => thenBranch.continues || elseBranch.continues
  | .expression _ _ | .print _ _ | .whileLoop _ _ _ _ | .break _ | .return _ _ => false

/-- Whether a declaration is a statement with such a `continue`. -/
def Decl.continues : Decl → Bool
  | .stmt s => s.continues
  | .var _ _ _ | .function _ | .class _ _ _ _ => false

/-- Whether one of several declarations is. -/
def Decl.anyContinues : List Decl → Bool
  | [] => false
  | d :: ds => d.continues || Decl.anyContinues ds

end

/-! ## Moved increments -/

mutual

/-- A statement, and the same with increments behind the bodies of their loops: of any of its loops whose
bodies have no `continue` of their own, wherever they are; of none if nothing `moves`. -/
inductive Stmt.Moved (moves : Bool) : Stmt → Stmt → Prop
  | expression (value : Expr) (span : Span) :
      Stmt.Moved moves (.expression value span) (.expression value span)
  | print (value : Expr) (span : Span) : Stmt.Moved moves (.print value span) (.print value span)
  | block {body body' : List Decl} (span : Span) (hbody : Decl.MovedAll moves body body') :
      Stmt.Moved moves (.block body span) (.block body' span)
  | ifThen {thenBranch thenBranch' : Stmt} (condition : Expr) (span : Span)
      (hthen : Stmt.Moved moves thenBranch thenBranch') :
      Stmt.Moved moves (.ifThenElse condition thenBranch none span)
        (.ifThenElse condition thenBranch' none span)
  | ifThenElse {thenBranch thenBranch' elseBranch elseBranch' : Stmt} (condition : Expr)
      (span : Span) (hthen : Stmt.Moved moves thenBranch thenBranch')
      (helse : Stmt.Moved moves elseBranch elseBranch') :
      Stmt.Moved moves (.ifThenElse condition thenBranch (some elseBranch) span)
        (.ifThenElse condition thenBranch' (some elseBranch') span)
  | loop {body body' : Stmt} (condition : Expr) (increment : Option Expr) (span : Span)
      (hbody : Stmt.Moved moves body body') :
      Stmt.Moved moves (.whileLoop condition body increment span)
        (.whileLoop condition body' increment span)
  /-- The increment of a loop, behind its body. -/
  | increment {body body' : Stmt} (condition increment : Expr) (span inner outer : Span)
      (hbody : Stmt.Moved moves body body') (hmoves : moves = true)
      (hcontinues : body.continues = false) :
      Stmt.Moved moves (.whileLoop condition body (some increment) span)
        (.whileLoop condition (.block [.stmt body', .stmt (.expression increment inner)] outer)
          none span)
  | break (span : Span) : Stmt.Moved moves (.break span) (.break span)
  | continue (span : Span) : Stmt.Moved moves (.continue span) (.continue span)
  | return (value : Option Expr) (span : Span) :
      Stmt.Moved moves (.return value span) (.return value span)

/-- The same for a declaration. -/
inductive Decl.Moved (moves : Bool) : Decl → Decl → Prop
  | var (name : String) (initial : Option Expr) (span : Span) :
      Decl.Moved moves (.var name initial span) (.var name initial span)
  | function {f f' : FunctionDecl} (hf : FunctionDecl.Moved moves f f') :
      Decl.Moved moves (.function f) (.function f')
  | class {methods methods' : List FunctionDecl} (name : String) (superclass : Option NameUse)
      (span : Span) (hmethods : FunctionDecl.MovedAll moves methods methods') :
      Decl.Moved moves (.class name superclass methods span) (.class name superclass methods' span)
  | stmt {s s' : Stmt} (hs : Stmt.Moved moves s s') : Decl.Moved moves (.stmt s) (.stmt s')

/-- The same for declarations one after the other. -/
inductive Decl.MovedAll (moves : Bool) : List Decl → List Decl → Prop
  | nil : Decl.MovedAll moves [] []
  | cons {d d' : Decl} {ds ds' : List Decl} (hd : Decl.Moved moves d d')
      (hds : Decl.MovedAll moves ds ds') : Decl.MovedAll moves (d :: ds) (d' :: ds')

/-- The same for the body of a function. -/
inductive FunctionDecl.Moved (moves : Bool) : FunctionDecl → FunctionDecl → Prop
  | mk {body body' : List Decl} (name : String) (params : List Param) (span : Span)
      (hbody : Decl.MovedAll moves body body') :
      FunctionDecl.Moved moves ⟨name, params, body, span⟩ ⟨name, params, body', span⟩

/-- The same for the methods of a class. -/
inductive FunctionDecl.MovedAll (moves : Bool) : List FunctionDecl → List FunctionDecl → Prop
  | nil : FunctionDecl.MovedAll moves [] []
  | cons {f f' : FunctionDecl} {fs fs' : List FunctionDecl} (hf : FunctionDecl.Moved moves f f')
      (hfs : FunctionDecl.MovedAll moves fs fs') : FunctionDecl.MovedAll moves (f :: fs) (f' :: fs')

end

/-- A program, and the same with increments behind the bodies of their loops. -/
structure Program.Moved (p p' : Program) : Prop where
  body : Decl.MovedAll true p.body p'.body
  span_eq : p'.span = p.span

mutual

/-- A statement with the increments behind the bodies wherever they may stand there. -/
def Stmt.moveIncrements : Stmt → Stmt
  | .block body span => .block (Decl.moveAllIncrements body) span
  | .ifThenElse condition thenBranch none span =>
    .ifThenElse condition thenBranch.moveIncrements none span
  | .ifThenElse condition thenBranch (some elseBranch) span =>
    .ifThenElse condition thenBranch.moveIncrements (some elseBranch.moveIncrements) span
  | .whileLoop condition body none span => .whileLoop condition body.moveIncrements none span
  | .whileLoop condition body (some increment) span =>
    if body.continues then .whileLoop condition body.moveIncrements (some increment) span
    else
      .whileLoop condition
        (.block [.stmt body.moveIncrements, .stmt (.expression increment increment.span)] body.span)
        none span
  | .expression value span => .expression value span
  | .print value span => .print value span
  | .break span => .break span
  | .continue span => .continue span
  | .return value span => .return value span

def Decl.moveIncrements : Decl → Decl
  | .var name initial span => .var name initial span
  | .function f => .function f.moveIncrements
  | .class name superclass methods span =>
    .class name superclass (FunctionDecl.moveAllIncrements methods) span
  | .stmt s => .stmt s.moveIncrements

def Decl.moveAllIncrements : List Decl → List Decl
  | [] => []
  | d :: ds => d.moveIncrements :: Decl.moveAllIncrements ds

def FunctionDecl.moveIncrements : FunctionDecl → FunctionDecl
  | ⟨name, params, body, span⟩ => ⟨name, params, Decl.moveAllIncrements body, span⟩

def FunctionDecl.moveAllIncrements : List FunctionDecl → List FunctionDecl
  | [] => []
  | f :: fs => f.moveIncrements :: FunctionDecl.moveAllIncrements fs

end

/-- A program with the increments behind the bodies wherever they may stand there. -/
def Program.moveIncrements (p : Program) : Program :=
  { p with body := Decl.moveAllIncrements p.body }

mutual

theorem Stmt.moved_moveIncrements : (s : Stmt) → Stmt.Moved true s s.moveIncrements
  | .expression value span => .expression value span
  | .print value span => .print value span
  | .block body span => .block span (Decl.moved_moveAllIncrements body)
  | .ifThenElse condition thenBranch none span =>
    .ifThen condition span thenBranch.moved_moveIncrements
  | .ifThenElse condition thenBranch (some elseBranch) span =>
    .ifThenElse condition span thenBranch.moved_moveIncrements elseBranch.moved_moveIncrements
  | .whileLoop condition body none span =>
    .loop condition none span body.moved_moveIncrements
  | .whileLoop condition body (some increment) span => by
    have hbody := body.moved_moveIncrements
    unfold Stmt.moveIncrements
    cases hcontinues : body.continues with
    | true => exact .loop condition (some increment) span hbody
    | false => exact .increment condition increment span _ _ hbody rfl hcontinues
  | .break span => .break span
  | .continue span => .continue span
  | .return value span => .return value span

theorem Decl.moved_moveIncrements : (d : Decl) → Decl.Moved true d d.moveIncrements
  | .var name initial span => .var name initial span
  | .function f => .function f.moved_moveIncrements
  | .class name superclass methods span =>
    .class name superclass span (FunctionDecl.moved_moveAllIncrements methods)
  | .stmt s => .stmt s.moved_moveIncrements

theorem Decl.moved_moveAllIncrements :
    (ds : List Decl) → Decl.MovedAll true ds (Decl.moveAllIncrements ds)
  | [] => .nil
  | d :: ds => .cons d.moved_moveIncrements (Decl.moved_moveAllIncrements ds)

theorem FunctionDecl.moved_moveIncrements :
    (f : FunctionDecl) → FunctionDecl.Moved true f f.moveIncrements
  | ⟨name, params, body, span⟩ => .mk name params span (Decl.moved_moveAllIncrements body)

theorem FunctionDecl.moved_moveAllIncrements :
    (fs : List FunctionDecl) → FunctionDecl.MovedAll true fs (FunctionDecl.moveAllIncrements fs)
  | [] => .nil
  | f :: fs => .cons f.moved_moveIncrements (FunctionDecl.moved_moveAllIncrements fs)

end

/-- All increments that may stand behind their bodies can be moved there at once. -/
theorem Program.moved_moveIncrements (p : Program) : p.Moved p.moveIncrements :=
  ⟨Decl.moved_moveAllIncrements p.body, rfl⟩

/-! ## What the trees have in common -/

mutual

/-- Nothing has to be moved. -/
theorem Stmt.Moved.refl (moves : Bool) : (s : Stmt) → Stmt.Moved moves s s
  | .expression value span => .expression value span
  | .print value span => .print value span
  | .block body span => .block span (Decl.MovedAll.refl moves body)
  | .ifThenElse condition thenBranch none span =>
    .ifThen condition span (Stmt.Moved.refl moves thenBranch)
  | .ifThenElse condition thenBranch (some elseBranch) span =>
    .ifThenElse condition span (Stmt.Moved.refl moves thenBranch) (Stmt.Moved.refl moves elseBranch)
  | .whileLoop condition body increment span =>
    .loop condition increment span (Stmt.Moved.refl moves body)
  | .break span => .break span
  | .continue span => .continue span
  | .return value span => .return value span

theorem Decl.Moved.refl (moves : Bool) : (d : Decl) → Decl.Moved moves d d
  | .var name initial span => .var name initial span
  | .function f => .function (FunctionDecl.Moved.refl moves f)
  | .class name superclass methods span =>
    .class name superclass span (FunctionDecl.MovedAll.refl moves methods)
  | .stmt s => .stmt (Stmt.Moved.refl moves s)

theorem Decl.MovedAll.refl (moves : Bool) : (ds : List Decl) → Decl.MovedAll moves ds ds
  | [] => .nil
  | d :: ds => .cons (Decl.Moved.refl moves d) (Decl.MovedAll.refl moves ds)

theorem FunctionDecl.Moved.refl (moves : Bool) : (f : FunctionDecl) → FunctionDecl.Moved moves f f
  | ⟨name, params, body, span⟩ => .mk name params span (Decl.MovedAll.refl moves body)

theorem FunctionDecl.MovedAll.refl (moves : Bool) :
    (fs : List FunctionDecl) → FunctionDecl.MovedAll moves fs fs
  | [] => .nil
  | f :: fs => .cons (FunctionDecl.Moved.refl moves f) (FunctionDecl.MovedAll.refl moves fs)

end

mutual

/-- Where nothing moves, any increments may. -/
theorem Stmt.Moved.all {s s' : Stmt} : Stmt.Moved false s s' → Stmt.Moved true s s'
  | .expression value span => .expression value span
  | .print value span => .print value span
  | .block span hbody => .block span hbody.all
  | .ifThen condition span hthen => .ifThen condition span hthen.all
  | .ifThenElse condition span hthen helse => .ifThenElse condition span hthen.all helse.all
  | .loop condition increment span hbody => .loop condition increment span hbody.all
  | .increment _ _ _ _ _ _ hmoves _ => (Bool.false_ne_true hmoves).elim
  | .break span => .break span
  | .continue span => .continue span
  | .return value span => .return value span

theorem Decl.Moved.all {d d' : Decl} : Decl.Moved false d d' → Decl.Moved true d d'
  | .var name initial span => .var name initial span
  | .function hf => .function hf.all
  | .class name superclass span hmethods => .class name superclass span hmethods.all
  | .stmt hs => .stmt hs.all

theorem Decl.MovedAll.all {ds ds' : List Decl} :
    Decl.MovedAll false ds ds' → Decl.MovedAll true ds ds'
  | .nil => .nil
  | .cons hd hds => .cons hd.all hds.all

theorem FunctionDecl.Moved.all {f f' : FunctionDecl} :
    FunctionDecl.Moved false f f' → FunctionDecl.Moved true f f'
  | .mk name params span hbody => .mk name params span hbody.all

theorem FunctionDecl.MovedAll.all {fs fs' : List FunctionDecl} :
    FunctionDecl.MovedAll false fs fs' → FunctionDecl.MovedAll true fs fs'
  | .nil => .nil
  | .cons hf hfs => .cons hf.all hfs.all

end

variable {moves : Bool}

theorem Decl.Moved.name?_eq {d d' : Decl} (h : Decl.Moved moves d d') : d'.name? = d.name? := by
  cases h with
  | var | «class» | stmt => rfl
  | function hf =>
      cases hf
      rfl

theorem Decl.Moved.behind_eq {d d' : Decl} (h : Decl.Moved moves d d') (scopes : Scopes) :
    scopes.behind d' = scopes.behind d := by
  unfold Scopes.behind
  rw [h.name?_eq]

theorem FunctionDecl.Moved.name_eq {f f' : FunctionDecl} (h : FunctionDecl.Moved moves f f') :
    f'.name = f.name := by
  cases h
  rfl

theorem FunctionDecl.Moved.span_eq {f f' : FunctionDecl} (h : FunctionDecl.Moved moves f f') :
    f'.span = f.span := by
  cases h
  rfl

/-! ## Static errors -/

/-- The errors in an expression depend on the names that may not be read yet, and on the class around. -/
theorem NameUse.errors_resolve_congr {scopes scopes' : Scopes} (use : NameUse)
    (h : ∀ x, scopes'.isIncomplete x = scopes.isIncomplete x) :
    (use.resolve scopes').errors = (use.resolve scopes).errors := by
  simp only [NameUse.resolve, Checked.errors_bind, h, Checked.errors_pure]

mutual

theorem Expr.errors_resolve_congr (kind : ClassKind) {scopes scopes' : Scopes}
    (h : ∀ x, scopes'.isIncomplete x = scopes.isIncomplete x) :
    (e : Expr) → (e.resolve kind scopes').errors = (e.resolve kind scopes).errors
  | .literal _ _ => rfl
  | .grouping inner _ | .unary _ inner _ | .assign _ _ inner _ | .get inner _ _ => by
    simp only [Expr.resolve, Checked.errors_bind, inner.errors_resolve_congr kind h,
      Checked.errors_pure]
  | .binary _ left right _ | .logical _ left right _ | .set left _ right _ => by
    simp only [Expr.resolve, Checked.errors_bind, left.errors_resolve_congr kind h,
      right.errors_resolve_congr kind h, Checked.errors_pure]
  | .variable use => by
    simp only [Expr.resolve, Checked.errors_bind, use.errors_resolve_congr h, Checked.errors_pure]
  | .call callee args _ => by
    simp only [Expr.resolve, Checked.errors_bind, callee.errors_resolve_congr kind h,
      Expr.errors_resolveAll_congr kind h args, Checked.errors_pure]
  | .this _ _ => by cases kind <;> rfl
  | .super _ _ _ => by cases kind <;> rfl

theorem Expr.errors_resolveAll_congr (kind : ClassKind) {scopes scopes' : Scopes}
    (h : ∀ x, scopes'.isIncomplete x = scopes.isIncomplete x) :
    (es : List Expr) →
      (Expr.resolveAll kind scopes' es).errors = (Expr.resolveAll kind scopes es).errors
  | [] => rfl
  | e :: es => by
    simp only [Expr.resolveAll, Checked.errors_bind, e.errors_resolve_congr kind h,
      Expr.errors_resolveAll_congr kind h es, Checked.errors_pure]

end

theorem Expr.errors_resolveOption_congr (kind : ClassKind) {scopes scopes' : Scopes}
    (h : ∀ x, scopes'.isIncomplete x = scopes.isIncomplete x) (e : Option Expr) :
    (Expr.resolveOption kind scopes' e).errors = (Expr.resolveOption kind scopes e).errors := by
  cases e with
  | none => rfl
  | some e =>
      simp only [Expr.resolveOption, Checked.errors_bind, e.errors_resolve_congr kind h,
        Checked.errors_pure]

theorem isSome_resolveSuperclass (scopes : Scopes) (name : String) (superclass : Option NameUse) :
    (resolveSuperclass scopes name superclass).value.isSome = superclass.isSome := by
  cases superclass <;> rfl

namespace Scopes

/-- Scopes that look alike to the static rules of declarations: the innermost ones are the same. -/
inductive SameFront : Scopes → Scopes → Prop
  | globals : SameFront [] []
  | scope (scope : Scope) (outer outer' : Scopes) : SameFront (scope :: outer) (scope :: outer')

variable {scopes scopes' : Scopes}

theorem SameFront.isIncomplete_eq (h : SameFront scopes scopes') (x : String) :
    scopes'.isIncomplete x = scopes.isIncomplete x := by
  cases h <;> rfl

theorem SameFront.declaresHere_eq (h : SameFront scopes scopes') (x : String) :
    scopes'.declaresHere x = scopes.declaresHere x := by
  cases h <;> rfl

theorem SameFront.mark (h : SameFront scopes scopes') (name : String) (complete : Bool) :
    SameFront (scopes.mark name complete) (scopes'.mark name complete) := by
  cases h with
  | globals => exact .globals
  | scope scope outer outer' => exact .scope _ outer outer'

theorem SameFront.behind (h : SameFront scopes scopes') (d : Decl) :
    SameFront (scopes.behind d) (scopes'.behind d) := by
  unfold Scopes.behind
  cases d.name? with
  | none => exact h
  | some name => exact h.mark name true

theorem sameFront_enter (scopes scopes' : Scopes) : SameFront scopes.enter scopes'.enter :=
  .scope _ scopes scopes'

theorem Complete.enterClass {scopes : Scopes} (h : Complete scopes) (derived : Bool) :
    Complete (scopes.enterClass derived) := (h.enterSuper derived).enterWith "this"

/-- Where all declarations are complete, every name may be read. -/
theorem Complete.isIncomplete_eq (h : Complete scopes) (h' : Complete scopes') (x : String) :
    scopes'.isIncomplete x = scopes.isIncomplete x := by
  rw [h.isIncomplete_eq_false, h'.isIncomplete_eq_false]

end Scopes

open Scopes

/-- The scopes around a function do not matter to its parameters. -/
theorem Param.errors_resolveAll (scopes scopes' : Scopes) (params : List Param) :
    (Param.resolveAll scopes'.enter params).errors =
      (Param.resolveAll scopes.enter params).errors := by
  have hgeneral (scope : Scope) : (Param.resolveAll (scope :: scopes') params).errors =
      (Param.resolveAll (scope :: scopes) params).errors := by
    induction params generalizing scope with
    | nil => rfl
    | cons p ps ih => exact congrArg (_ ++ ·) (ih _)
  exact hgeneral Table.empty

mutual

/-- **A statement with moved increments has the same static errors**, also when the scopes around it are
other ones, as long as all declarations in them are complete. -/
theorem Stmt.Moved.errors_resolve (a : Surroundings) {scopes scopes' : Scopes}
    (hcomplete : Complete scopes) (hcomplete' : Complete scopes') {s s' : Stmt} :
    Stmt.Moved moves s s' → (s'.resolve a scopes').errors = (s.resolve a scopes).errors
  | .expression value _ | .print value _ => by
    simp only [Stmt.resolve, Checked.errors_bind,
      value.errors_resolve_congr _ (hcomplete.isIncomplete_eq hcomplete'), Checked.errors_pure]
  | .block _ hbody => by
    simp only [Stmt.resolve, Checked.errors_bind,
      hbody.errors_resolveAll a (sameFront_enter scopes scopes') hcomplete.enter
        hcomplete'.enter, Checked.errors_pure]
  | .ifThen condition _ hthen => by
    simp only [Stmt.resolve, Checked.errors_bind,
      condition.errors_resolve_congr _ (hcomplete.isIncomplete_eq hcomplete'),
      hthen.errors_resolve a hcomplete hcomplete', Checked.errors_pure]
  | .ifThenElse condition _ hthen helse => by
    simp only [Stmt.resolve, Checked.errors_bind,
      condition.errors_resolve_congr _ (hcomplete.isIncomplete_eq hcomplete'),
      hthen.errors_resolve a hcomplete hcomplete', helse.errors_resolve a hcomplete hcomplete',
      Checked.errors_pure]
  | .loop condition increment _ hbody => by
    simp only [Stmt.resolve, Checked.errors_bind,
      condition.errors_resolve_congr _ (hcomplete.isIncomplete_eq hcomplete'),
      hbody.errors_resolve { a with inLoop := true } hcomplete hcomplete',
      Expr.errors_resolveOption_congr _ (hcomplete.isIncomplete_eq hcomplete') increment,
      Checked.errors_pure]
  | .increment condition increment _ _ _ hbody _ _ => by
    simp only [Stmt.resolve, Decl.resolveAll, Decl.resolve, Expr.resolveOption, Checked.errors_bind,
      Scopes.behind, Decl.name?,
      condition.errors_resolve_congr _ (hcomplete.isIncomplete_eq hcomplete'),
      hbody.errors_resolve { a with inLoop := true } hcomplete hcomplete'.enter,
      increment.errors_resolve_congr _ (hcomplete.isIncomplete_eq hcomplete'.enter),
      Checked.errors_pure, List.append_nil]
  | .break _ => rfl
  | .continue _ => rfl
  | .return value _ => by
    simp only [Stmt.resolve, Checked.errors_bind,
      Expr.errors_resolveOption_congr _ (hcomplete.isIncomplete_eq hcomplete') value,
      Checked.errors_pure]

/-- **A declaration**, in scopes of which the innermost one is the same. -/
theorem Decl.Moved.errors_resolve (a : Surroundings) {scopes scopes' : Scopes}
    (hfront : SameFront scopes scopes') (hcomplete : Complete scopes)
    (hcomplete' : Complete scopes') {d d' : Decl} :
    Decl.Moved moves d d' → (d'.resolve a scopes').errors = (d.resolve a scopes).errors
  | .var name initial _ => by
    simp only [Decl.resolve, checkNew, Checked.errors_bind, hfront.declaresHere_eq,
      Expr.errors_resolveOption_congr _ (hfront.mark name false).isIncomplete_eq initial,
      Scopes.declare, Checked.errors_pure]
  | .function (f := f) hf => by
    simp only [Decl.resolve, checkNew, Checked.errors_bind, hfront.declaresHere_eq, hf.name_eq,
      hf.span_eq, hf.errors_resolve a .function (hcomplete.define f.name)
        (hcomplete'.define f.name), Checked.errors_pure]
  | .class name superclass _ hmethods => by
    have hsuper : (resolveSuperclass (scopes'.define name) name superclass).errors =
        (resolveSuperclass (scopes.define name) name superclass).errors := by
      cases superclass with
      | none => rfl
      | some use =>
          simp only [resolveSuperclass, Checked.errors_bind, Checked.errors_pure,
            use.errors_resolve_congr
              ((hcomplete.define name).isIncomplete_eq (hcomplete'.define name))]
    simp only [Decl.resolve, checkNew, Checked.errors_bind, hfront.declaresHere_eq, hsuper,
      isSome_resolveSuperclass, Checked.errors_pure]
    rw [hmethods.errors_resolveAll _ ((hcomplete.define name).enterClass _)
      ((hcomplete'.define name).enterClass _)]
  | .stmt hs => by
    simp only [Decl.resolve, Checked.errors_bind, hs.errors_resolve a hcomplete hcomplete',
      Checked.errors_pure]

theorem Decl.MovedAll.errors_resolveAll (a : Surroundings) {scopes scopes' : Scopes}
    (hfront : SameFront scopes scopes') (hcomplete : Complete scopes)
    (hcomplete' : Complete scopes') {ds ds' : List Decl} :
    Decl.MovedAll moves ds ds' →
      (Decl.resolveAll a scopes' ds').errors = (Decl.resolveAll a scopes ds).errors
  | .nil => rfl
  | .cons (d := d) hd hds => by
    simp only [Decl.resolveAll, Checked.errors_bind, hd.errors_resolve a hfront hcomplete hcomplete',
      hd.behind_eq, hds.errors_resolveAll a (hfront.behind d) (hcomplete.behind d)
        (hcomplete'.behind d), Checked.errors_pure]

/-- **A function**, in any scopes whose declarations are complete. -/
theorem FunctionDecl.Moved.errors_resolve (a : Surroundings) (kind : FunctionKind)
    {scopes scopes' : Scopes} (hcomplete : Complete scopes) (hcomplete' : Complete scopes')
    {f f' : FunctionDecl} :
    FunctionDecl.Moved moves f f' →
      (f'.resolve a scopes' kind).errors = (f.resolve a scopes kind).errors
  | .mk _ params _ hbody => by
    have hfront : SameFront (Param.resolveAll scopes.enter params).value
        (Param.resolveAll scopes'.enter params).value := by
      rw [Param.resolveAll_value, Param.resolveAll_value]
      exact .scope _ scopes scopes'
    simp only [FunctionDecl.resolve, Checked.errors_bind, Param.errors_resolveAll scopes scopes',
      hbody.errors_resolveAll (a.inFunction kind) hfront (Param.complete_resolveAll hcomplete params)
        (Param.complete_resolveAll hcomplete' params), Checked.errors_pure]

theorem FunctionDecl.MovedAll.errors_resolveAll (a : Surroundings) {scopes scopes' : Scopes}
    (hcomplete : Complete scopes) (hcomplete' : Complete scopes') {fs fs' : List FunctionDecl} :
    FunctionDecl.MovedAll moves fs fs' →
      (FunctionDecl.resolveAll a scopes' fs').errors = (FunctionDecl.resolveAll a scopes fs).errors
  | .nil => rfl
  | .cons hf hfs => by
    simp only [FunctionDecl.resolveAll, Checked.errors_bind, hf.name_eq,
      hf.errors_resolve a _ hcomplete hcomplete', hfs.errors_resolveAll a hcomplete hcomplete',
      Checked.errors_pure]

end

/-- **A program with moved increments has the same static errors.** -/
theorem Program.Moved.errors_resolve {p p' : Program} (h : p.Moved p') :
    p'.resolve.errors = p.resolve.errors := by
  unfold Program.resolve
  simp only [Checked.errors_bind, Checked.errors_pure,
    h.body.errors_resolveAll .topLevel .globals .nil .nil]

end Lox
