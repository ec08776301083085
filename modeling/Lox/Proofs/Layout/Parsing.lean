import Lox.Proofs.Places.Syntax

/-!
# Parsing tokens at other places

A parser copies the places of tokens into what it makes, and never looks at one. So from tokens at
other places it makes the same at the other places, whether it succeeds or fails, in both modes:
trees, errors, and what is recorded on the way.

## Contents
- `SyntaxError.relocate`, `Cursor.relocate`, `Scan.relocate`, `Recovered.relocate`: what else has
  places.
- `Moves`: a parser that does at other places what another one does.
- `Moves.bind` and the other steps, then one lemma for each production.
- `recover_relocate`: the recovering parse of a scan.
-/

namespace Lox

section Relocation

variable (move : Location → Location)

/-- A syntax error at another place. -/
def SyntaxError.relocate (e : SyntaxError) : SyntaxError := { e with location := move e.location }

/-- A lexical error at another place. -/
def LexicalError.relocate (e : LexicalError) : LexicalError := { e with location := move e.location }

/-- An error of a source text at another place. -/
def SourceError.relocate : SourceError → SourceError
  | .lexical e => .lexical (e.relocate move)
  | .syntactic e => .syntactic (e.relocate move)

/-- What scanning finds, at another place. -/
def Scan.relocate (s : Scan) : Scan where
  tokens := s.tokens.map (·.relocate move)
  finish := move s.finish
  errors := s.errors.map (·.relocate move)

/-- What a recovering parse makes, at another place. -/
def Recovered.relocate (r : Recovered) : Recovered :=
  ⟨r.program.relocate move, r.errors.map (·.relocate move)⟩

/-- A cursor over tokens at other places. -/
def Parsing.Cursor.relocate (c : Parsing.Cursor) : Parsing.Cursor where
  previous := c.previous.map (·.relocate move)
  rest := c.rest.map (·.relocate move)
  finish := move c.finish
  depth := c.depth
  errors := c.errors.map (·.relocate move)

end Relocation

namespace Parsing

variable {move : Location → Location}

/-! ## Cursors -/

namespace Cursor

@[simp] theorem kind?_relocate (c : Cursor) : (c.relocate move).kind? = c.kind? := by
  obtain ⟨previous, rest, finish, depth, errors⟩ := c
  cases rest <;> rfl

/-- The next token, at the other place. -/
theorem rest_relocate (c : Cursor) {t : Token} {ts : List Token} (hrest : c.rest = t :: ts) :
    (c.relocate move).rest = t.relocate move :: ts.map (·.relocate move) := by
  show c.rest.map (·.relocate move) = _
  rw [hrest, List.map_cons]

theorem here_relocate (c : Cursor) : (c.relocate move).here = move c.here := by
  obtain ⟨previous, rest, finish, depth, errors⟩ := c
  cases rest <;> rfl

theorem reached_relocate (c : Cursor) : (c.relocate move).reached = move c.reached := by
  obtain ⟨previous, rest, finish, depth, errors⟩ := c
  cases previous <;> cases rest <;> rfl

theorem advance_relocate (c : Cursor) : (c.relocate move).advance = c.advance.relocate move := by
  obtain ⟨previous, rest, finish, depth, errors⟩ := c
  cases rest <;> rfl

theorem error_relocate (c : Cursor) (cause : SyntaxError.Cause) :
    (c.relocate move).error cause = (c.error cause).relocate move := by
  obtain ⟨previous, rest, finish, depth, errors⟩ := c
  cases rest <;> rfl

theorem record_relocate (c : Cursor) (e : SyntaxError) :
    (c.relocate move).record (e.relocate move) = (c.record e).relocate move := by
  simp only [record, relocate, List.map_append, List.map_cons, List.map_nil]

end Cursor

/-- Which tokens are skipped depends on their kinds alone. -/
theorem skipStatement_relocate (previous : Option Token) (ts : List Token) :
    skipStatement (previous.map (·.relocate move)) (ts.map (·.relocate move)) =
      ((skipStatement previous ts).1.map (·.relocate move),
        (skipStatement previous ts).2.map (·.relocate move)) := by
  induction ts generalizing previous with
  | nil => rfl
  | cons t ts ih =>
      have hprevious : (previous.map (·.relocate move)).any (·.kind == .semicolon) =
          previous.any (·.kind == .semicolon) := by
        cases previous <;> rfl
      simp only [List.map_cons, skipStatement, hprevious, Token.relocate_kind]
      split
      · rfl
      · exact ih (some t)

theorem Cursor.synchronize_relocate (c : Cursor) :
    (c.relocate move).synchronize = c.synchronize.relocate move := by
  unfold Cursor.synchronize
  rw [c.advance_relocate]
  dsimp only [Cursor.relocate]
  rw [skipStatement_relocate]

/-! ## Parsers -/

/-- The end of a parse at another place; `f` moves its value there. -/
def relocateEnding {α β : Type} (move : Location → Location) (f : α → β) :
    EStateM.Result SyntaxError Cursor α → EStateM.Result SyntaxError Cursor β
  | .ok a c => .ok (f a) (c.relocate move)
  | .error e c => .error (e.relocate move) (c.relocate move)

/-- The parser `q` does at other places what `p` does; `f` moves values there. -/
def Moves {α β : Type} (move : Location → Location) (f : α → β) (p : Parser α) (q : Parser β) :
    Prop :=
  ∀ c, q (c.relocate move) = relocateEnding move f (p c)

namespace Moves

variable {α β γ δ : Type} {f : α → β} {g : γ → δ} {p : Parser α} {q : Parser β}

/-- **Sequencing.** -/
theorem bind {k : α → Parser γ} {k' : β → Parser δ} (hp : Moves move f p q)
    (hk : ∀ a, Moves move g (k a) (k' (f a))) : Moves move g (p >>= k) (q >>= k') := by
  intro c
  rw [bind_apply, bind_apply, hp c]
  cases p c with
  | ok a c' => exact hk a c'
  | error e c' => rfl

theorem pure {a : α} {b : β} (h : b = f a) :
    Moves move f (Pure.pure a : Parser α) (Pure.pure b) := by
  intro c
  rw [h]
  rfl

theorem map {g : α → γ} {g' : β → δ} {f' : γ → δ} (hp : Moves move f p q)
    (h : ∀ a, g' (f a) = f' (g a)) : Moves move f' (g <$> p) (g' <$> q) := by
  rw [map_eq_pure_bind, map_eq_pure_bind]
  exact hp.bind fun a => .pure (h a)

/-- What may be absent. -/
theorem mapSome (hp : Moves move f p q) : Moves move (Option.map f) (some <$> p) (some <$> q) :=
  hp.map fun _ => rfl

theorem absent (f : α → β) :
    Moves move (Option.map f) (Pure.pure none : Parser (Option α)) (Pure.pure none) := pure rfl

/-- No items. -/
theorem noItems (f : α → β) :
    Moves move (List.map f) (Pure.pure [] : Parser (List α)) (Pure.pure []) := pure rfl

theorem ite {b : Bool} {p' : Parser α} {q' : Parser β} (h : Moves move f p q)
    (h' : Moves move f p' q') :
    Moves move f (if b = true then p else p') (if b = true then q else q') := by
  cases b with
  | true => exact h
  | false => exact h'

/-! ## Steps that all productions share -/

theorem peek? : Moves move id peek? peek? := by
  intro c
  unfold Parsing.peek?
  rw [c.kind?_relocate]
  rfl

theorem here : Moves move move here here := by
  intro c
  unfold Parsing.here
  rw [c.here_relocate]
  rfl

theorem remaining : Moves move id remaining remaining := by
  intro c
  unfold Parsing.remaining
  rw [show (c.relocate move).rest.length = c.rest.length from List.length_map _]
  rfl

theorem advance : Moves move id advance advance := by
  intro c
  unfold Parsing.advance
  rw [c.advance_relocate]
  rfl

theorem fail (cause : SyntaxError.Cause) : Moves move f (fail cause) (fail cause) := by
  intro c
  unfold Parsing.fail
  rw [c.error_relocate]
  rfl

theorem spanFrom (start : Location) :
    Moves move (Span.relocate move) (spanFrom start) (spanFrom (move start)) := by
  intro c
  unfold Parsing.spanFrom
  rw [c.reached_relocate]
  rfl

theorem check (kind : Token.Kind) : Moves move id (check kind) (check kind) := by
  intro c
  unfold Parsing.check
  rw [c.kind?_relocate]
  rfl

theorem accept (kind : Token.Kind) : Moves move id (accept kind) (accept kind) := by
  intro c
  unfold Parsing.accept
  rw [c.kind?_relocate, c.advance_relocate]
  split <;> rfl

theorem expect (kind : Token.Kind) (what : String) :
    Moves move (Token.relocate move) (expect kind what) (expect kind what) := by
  intro c
  by_cases hkind : c.kind? = some kind
  · obtain ⟨t, ts, hrest, ht⟩ := Cursor.exists_cons_of_kind? hkind
    rw [expect_of_kind hrest ht, expect_of_kind (c.rest_relocate hrest) ht, c.advance_relocate]
    rfl
  · have hkind' : (c.relocate move).kind? ≠ some kind := by
      rw [c.kind?_relocate]
      exact hkind
    rw [expect_of_ne hkind, expect_of_ne hkind']
    exact fail _ c

theorem nested (h : Moves move f p q) : Moves move f (nested p) (nested q) := by
  intro c
  unfold Parsing.nested
  rw [show (c.relocate move).depth = c.depth from rfl, c.error_relocate]
  split
  · rfl
  · have hinner : q { c.relocate move with depth := c.depth + 1 } =
        relocateEnding move f (p { c with depth := c.depth + 1 }) := h { c with depth := c.depth + 1 }
    rw [hinner]
    cases p { c with depth := c.depth + 1 } with
    | ok a c' => rfl
    | error e c' => rfl

theorem report (mode : Mode) (e : SyntaxError) :
    Moves move id (report mode e) (report mode (e.relocate move)) := by
  intro c
  cases mode with
  | strict => rfl
  | recovering =>
      unfold Parsing.report
      dsimp only
      rw [c.record_relocate]
      rfl

theorem recovered (mode : Mode) (h : Moves move f p q) :
    Moves move (Option.map f) (recovered mode p) (recovered mode q) := by
  intro c
  unfold Parsing.recovered
  rw [h c]
  cases p c with
  | ok a c' => rfl
  | error e c' =>
      cases mode with
      | strict => rfl
      | recovering =>
          dsimp only [relocateEnding]
          rw [c'.record_relocate, Cursor.synchronize_relocate]
          rfl

theorem checkCount (mode : Mode) (what : String) (count : Nat) :
    Moves move id (checkCount mode what count) (checkCount mode what count) := by
  intro c
  unfold Parsing.checkCount
  rw [c.error_relocate]
  split
  · exact report mode _ c
  · rfl

/-! ## Repetition -/

section Repetition

variable {p q : Parser Expr} (h : Moves move (·.relocate move) p q)

include h

theorem chainFrom {β : Type} (operator? : Token.Kind → Option β) {join : β → Expr → Expr → Expr}
    (hjoin : ∀ op a b, (join op a b).relocate move = join op (a.relocate move) (b.relocate move))
    (n : Nat) (left : Expr) :
    Moves move (·.relocate move) (chainFrom operator? p join n left)
      (chainFrom operator? q join n (left.relocate move)) := by
  induction n generalizing left with
  | zero => exact .pure rfl
  | succ n ih =>
      unfold Parsing.chainFrom
      refine peek?.bind fun kind => ?_
      dsimp only [id]
      cases kind.bind operator? with
      | none => exact .pure rfl
      | some op =>
          refine advance.bind fun _ => h.bind fun right => ?_
          rw [← hjoin]
          exact ih _

theorem chain {β : Type} (operator? : Token.Kind → Option β) {join : β → Expr → Expr → Expr}
    (hjoin : ∀ op a b, (join op a b).relocate move = join op (a.relocate move) (b.relocate move)) :
    Moves move (·.relocate move) (chain operator? p join) (chain operator? q join) :=
  h.bind fun left => remaining.bind fun n => h.chainFrom operator? hjoin n left

end Repetition

theorem itemsFrom {p : Nat → Parser α} {q : Nat → Parser β}
    (h : ∀ count, Moves move f (p count) (q count)) (n count : Nat) :
    Moves move (List.map f) (itemsFrom p n count) (itemsFrom q n count) := by
  induction n generalizing count with
  | zero => exact .pure rfl
  | succ n ih =>
      unfold Parsing.itemsFrom
      refine (h count).bind fun first => (accept .comma).bind fun more => .ite ?_ (.pure rfl)
      exact (ih (count + 1)).bind fun others => .pure rfl

theorem items {p : Nat → Parser α} {q : Nat → Parser β}
    (h : ∀ count, Moves move f (p count) (q count)) :
    Moves move (List.map f) (items p) (items q) :=
  remaining.bind fun n => itemsFrom h (n + 1) 0

/-! ## Expressions -/

theorem disjunction {p q : Parser Expr} (h : Moves move (·.relocate move) p q) :
    Moves move (·.relocate move) (disjunction p) (disjunction q) := by
  have hfactor := h.chain factorOp? (relocate_joinBinary move)
  have hterm := hfactor.chain termOp? (relocate_joinBinary move)
  have hcomparison := hterm.chain comparisonOp? (relocate_joinBinary move)
  have hequality := hcomparison.chain equalityOp? (relocate_joinBinary move)
  have hconjunction := hequality.chain andOp? (relocate_joinLogical move)
  exact hconjunction.chain orOp? (relocate_joinLogical move)

theorem superMethod (start : Location) :
    Moves move (·.relocate move) (superMethod start) (superMethod (move start)) :=
  (expect _ _).bind fun _ => (expect _ _).bind fun _ => (spanFrom start).bind fun _ => .pure rfl

section Expressions

variable {p q : Parser Expr} (h : Moves move (·.relocate move) p q)

include h

theorem grouping (start : Location) :
    Moves move (·.relocate move) (grouping p start) (grouping q (move start)) :=
  h.bind fun _ => (expect _ _).bind fun _ => (spanFrom start).bind fun _ => .pure rfl

theorem primary : Moves move (·.relocate move) (primary p) (primary q) := by
  intro c
  cases hrest : c.rest with
  | nil =>
      have hrest' : (c.relocate move).rest = [] := by
        show c.rest.map (·.relocate move) = []
        rw [hrest, List.map_nil]
      rw [primary_of_nil hrest, primary_of_nil hrest']
      exact fail _ c
  | cons t ts =>
      rw [primary_eq hrest, primary_eq (c.rest_relocate hrest)]
      rcases behindFirst_relocate (R := Moves move (·.relocate move)) (t := t) move
          (fun e => pure rfl) (superMethod _) (h.grouping _) with
        ⟨hnone, hnone'⟩ | ⟨p', q', hsome, hsome', hbehind⟩
      · rw [hnone, hnone']
        exact fail _ c
      · rw [hsome, hsome', c.advance_relocate]
        exact hbehind c.advance

theorem arguments (mode : Mode) :
    Moves move (Expr.relocateAll move) (arguments mode p) (arguments mode q) := by
  have hitem (count : Nat) : Moves move (·.relocate move)
      (Parsing.checkCount mode "arguments" count >>= fun _ => p)
      (Parsing.checkCount mode "arguments" count >>= fun _ => q) :=
    (checkCount mode "arguments" count).bind fun _ => h
  have hclose (args : List Expr) : Moves move (Expr.relocateAll move)
      (do let _ ← Parsing.expect .rightParen "')' after arguments"; Pure.pure args)
      (do
        let _ ← Parsing.expect .rightParen "')' after arguments"
        Pure.pure (Expr.relocateAll move args)) :=
    (expect _ _).bind fun _ => .pure rfl
  refine (check .rightParen).bind fun empty => ?_
  dsimp only [id]
  have hmap : List.map (·.relocate move) = Expr.relocateAll move := by
    funext es
    rw [Expr.relocateAll_eq_map]
  refine .ite ((noItems (Expr.relocate move)).bind fun args => ?_) ((items hitem).bind fun args => ?_)
  · rw [hmap]
    exact hclose args
  · rw [hmap]
    exact hclose args

theorem callFrom (mode : Mode) (n : Nat) (e : Expr) :
    Moves move (·.relocate move) (callFrom mode p n e) (callFrom mode q n (e.relocate move)) := by
  induction n generalizing e with
  | zero => exact .pure rfl
  | succ n ih =>
      unfold Parsing.callFrom
      rw [e.span_relocate]
      refine peek?.bind fun kind => ?_
      dsimp only [id]
      split
      · refine advance.bind fun _ => (h.arguments mode).bind fun args => ?_
        exact (spanFrom e.span.start).bind fun span => ih (.call e args span)
      · refine advance.bind fun _ => (expect _ _).bind fun name => ?_
        exact ih (.get e name.lexeme ⟨e.span.start, name.span.stop⟩)
      · exact .pure rfl

theorem call (mode : Mode) : Moves move (·.relocate move) (call mode p) (call mode q) :=
  h.primary.bind fun e => remaining.bind fun n => h.callFrom mode n e

end Expressions

theorem assignTo (mode : Mode) (equals : Token) (target value : Expr) :
    Moves move (·.relocate move) (assignTo mode equals target value)
      (assignTo mode (equals.relocate move) (target.relocate move) (value.relocate move)) := by
  unfold Parsing.assignTo
  rw [target.span_relocate, value.span_relocate]
  cases target with
  | «variable» use => exact .pure rfl
  | get object name span => exact .pure rfl
  | literal | grouping | unary | binary | logical | assign | call | set | this | super =>
      exact (report mode _).bind fun _ => .pure rfl

theorem assignmentWith (mode : Mode) {p q v w : Parser Expr}
    (h : Moves move (·.relocate move) p q) (hv : Moves move (·.relocate move) v w) :
    Moves move (·.relocate move) (assignmentWith mode p v) (assignmentWith mode q w) := by
  refine h.disjunction.bind fun target => (check .equal).bind fun present => .ite ?_ (.pure rfl)
  exact (expect _ _).bind fun equals => hv.bind fun value => assignTo mode equals target value

theorem unaryWith (mode : Mode) {p q e e' : Parser Expr} (h : Moves move (·.relocate move) p q)
    (he : Moves move (·.relocate move) e e') :
    Moves move (·.relocate move) (unaryWith mode p e) (unaryWith mode q e') := by
  refine here.bind fun start => peek?.bind fun kind => ?_
  dsimp only [id]
  cases kind.bind unaryOp? with
  | none => exact he.call mode
  | some op =>
      exact advance.bind fun _ => h.bind fun _ => (spanFrom start).bind fun _ => .pure rfl

variable (move) in
/-- Assignments and unary expressions, at any bound on the recursion. -/
theorem assignment_unary (mode : Mode) (n : Nat) :
    Moves move (·.relocate move) (assignment mode n) (assignment mode n) ∧
      Moves move (·.relocate move) (unary mode n) (unary mode n) := by
  induction n with
  | zero => exact ⟨fail _, fail _⟩
  | succ n ih =>
      obtain ⟨hassignment, hunary⟩ := ih
      exact ⟨nested (assignmentWith mode hunary hassignment),
        nested (unaryWith mode hunary hassignment)⟩

/-! ## Declarations -/

section Declarations

variable {d d' : Parser (Option Decl)} (hd : Moves move (Option.map (·.relocate move)) d d')

include hd

theorem declarationsFrom (closes : Option Token.Kind → Bool) (n : Nat) :
    Moves move (Decl.relocateAll move) (declarationsFrom d closes n)
      (declarationsFrom d' closes n) := by
  induction n with
  | zero => exact .pure rfl
  | succ n ih =>
      unfold Parsing.declarationsFrom
      refine peek?.bind fun kind => .ite (.pure rfl) ?_
      refine hd.bind fun first => ih.bind fun others => .pure ?_
      rw [Decl.relocateAll_append, Decl.relocateAll_toList]

theorem body : Moves move (Decl.relocateAll move) (body d) (body d') :=
  remaining.bind fun n => (hd.declarationsFrom closesBody n).bind fun _ =>
    (expect _ _).bind fun _ => .pure rfl

omit hd in
theorem parameter (mode : Mode) (count : Nat) :
    Moves move (·.relocate move) (parameter mode count) (parameter mode count) :=
  (checkCount _ _ _).bind fun _ => (expect _ _).bind fun _ => .pure rfl

theorem function (mode : Mode) (kind : String) (start : Location) :
    Moves move (·.relocate move) (function mode d kind start)
      (function mode d' kind (move start)) := by
  refine (expect _ _).bind fun name => (expect _ _).bind fun _ => (check _).bind fun empty => ?_
  -- what comes behind the parameters, whether there are any or not
  have hrest (params : List Param) : Moves move (·.relocate move)
      (do
        let _ ← Parsing.expect .rightParen "')' after parameters"
        let _ ← Parsing.expect .leftBrace ("'\x7b' before " ++ kind ++ " body")
        let decls ← Parsing.body d
        Pure.pure ⟨name.lexeme, params, decls, ← Parsing.spanFrom start⟩ : Parser FunctionDecl)
      (do
        let _ ← Parsing.expect .rightParen "')' after parameters"
        let _ ← Parsing.expect .leftBrace ("'\x7b' before " ++ kind ++ " body")
        let decls ← Parsing.body d'
        Pure.pure ⟨name.lexeme, params.map (·.relocate move), decls,
          ← Parsing.spanFrom (move start)⟩ : Parser FunctionDecl) :=
    (expect _ _).bind fun _ => (expect _ _).bind fun _ => hd.body.bind fun decls =>
      (spanFrom start).bind fun span => .pure rfl
  dsimp only [id]
  exact .ite ((noItems (Param.relocate move)).bind hrest) ((items (parameter mode)).bind hrest)

omit hd in
theorem methodsFrom {p q : Location → Parser FunctionDecl}
    (h : ∀ start, Moves move (·.relocate move) (p start) (q (move start))) (n : Nat) :
    Moves move (FunctionDecl.relocateAll move) (methodsFrom p n) (methodsFrom q n) := by
  induction n with
  | zero => exact .pure rfl
  | succ n ih =>
      unfold Parsing.methodsFrom
      refine peek?.bind fun kind => .ite (.pure rfl) ?_
      exact here.bind fun start => (h start).bind fun first => ih.bind fun others => .pure rfl

omit hd in
theorem superclassClause :
    Moves move (Option.map (·.relocate move)) superclassClause superclassClause :=
  (accept _).bind fun _ => .ite ((expect _ _).bind fun _ => .pure rfl) (.pure rfl)

theorem classDeclaration (mode : Mode) (start : Location) :
    Moves move (·.relocate move) (classDeclaration mode d start)
      (classDeclaration mode d' (move start)) := by
  refine (expect _ _).bind fun name => superclassClause.bind fun superclass => ?_
  refine (expect _ _).bind fun _ => remaining.bind fun n => ?_
  refine (methodsFrom (hd.function mode "method") n).bind fun methods => ?_
  exact (expect _ _).bind fun _ => (spanFrom start).bind fun _ => .pure rfl

end Declarations

section Statements

variable {e e' : Parser Expr} {s s' : Parser Stmt} {d d' : Parser (Option Decl)}
  (he : Moves move (·.relocate move) e e') (hs : Moves move (·.relocate move) s s')
  (hd : Moves move (Option.map (·.relocate move)) d d')

include he in
theorem varDeclaration (start : Location) :
    Moves move (·.relocate move) (varDeclaration e start) (varDeclaration e' (move start)) := by
  refine (expect _ _).bind fun name => (accept _).bind fun present => ?_
  have hrest (initial : Option Expr) : Moves move (·.relocate move)
      (do
        let _ ← Parsing.expect .semicolon "';' after variable declaration"
        Pure.pure (.var name.lexeme initial (← Parsing.spanFrom start)) : Parser Decl)
      (do
        let _ ← Parsing.expect .semicolon "';' after variable declaration"
        Pure.pure (.var name.lexeme (initial.map (·.relocate move)) (← Parsing.spanFrom (move start))) :
        Parser Decl) :=
    (expect _ _).bind fun _ => (spanFrom start).bind fun span => .pure rfl
  dsimp only [id]
  exact .ite (he.mapSome.bind hrest) ((absent (Expr.relocate move)).bind hrest)

/-! ## Statements -/

include he in
theorem expressionStatement :
    Moves move (·.relocate move) (expressionStatement e) (expressionStatement e') :=
  here.bind fun start => he.bind fun _ => (expect _ _).bind fun _ =>
    (spanFrom start).bind fun _ => .pure rfl

include he in
theorem printStatement (start : Location) :
    Moves move (·.relocate move) (printStatement e start) (printStatement e' (move start)) :=
  he.bind fun _ => (expect _ _).bind fun _ => (spanFrom start).bind fun _ => .pure rfl

include hd in
theorem blockStatement (start : Location) :
    Moves move (·.relocate move) (blockStatement d start) (blockStatement d' (move start)) :=
  hd.body.bind fun _ => (spanFrom start).bind fun _ => .pure rfl

include he hs in
theorem ifStatement (start : Location) :
    Moves move (·.relocate move) (ifStatement e s start) (ifStatement e' s' (move start)) := by
  refine (expect _ _).bind fun _ => he.bind fun condition => (expect _ _).bind fun _ => ?_
  refine hs.bind fun thenBranch => (accept _).bind fun present => ?_
  have hrest (elseBranch : Option Stmt) : Moves move (·.relocate move)
      (do Pure.pure (.ifThenElse condition thenBranch elseBranch (← Parsing.spanFrom start)) :
        Parser Stmt)
      (do
        Pure.pure (.ifThenElse (condition.relocate move) (thenBranch.relocate move)
          (elseBranch.map (·.relocate move)) (← Parsing.spanFrom (move start))) : Parser Stmt) := by
    refine (spanFrom start).bind fun span => .pure ?_
    cases elseBranch <;> rfl
  dsimp only [id]
  exact .ite (hs.mapSome.bind hrest) ((absent (Stmt.relocate move)).bind hrest)

include he hs in
theorem whileStatement (start : Location) :
    Moves move (·.relocate move) (whileStatement e s start) (whileStatement e' s' (move start)) := by
  refine (expect _ _).bind fun _ => he.bind fun condition => (expect _ _).bind fun _ => ?_
  exact hs.bind fun loopBody => (spanFrom start).bind fun _ => .pure rfl

include he in
theorem forInitializer :
    Moves move (Option.map (·.relocate move)) (forInitializer e) (forInitializer e') := by
  refine here.bind fun start => peek?.bind fun kind => ?_
  dsimp only [id]
  split
  · exact advance.bind fun _ => .pure rfl
  · exact advance.bind fun _ => (he.varDeclaration start).mapSome
  · exact he.expressionStatement.map fun _ => rfl

include he in
theorem optionalBefore (kind : Token.Kind) :
    Moves move (Option.map (·.relocate move)) (optionalBefore kind e) (optionalBefore kind e') :=
  (check kind).bind fun _ => .ite (absent _) he.mapSome

include he hs in
theorem forStatement (start : Location) :
    Moves move (·.relocate move) (forStatement e s start) (forStatement e' s' (move start)) := by
  refine (expect _ _).bind fun _ => he.forInitializer.bind fun initial => ?_
  refine (he.optionalBefore .semicolon).bind fun condition => (expect _ _).bind fun _ => ?_
  refine (he.optionalBefore .rightParen).bind fun increment => (expect _ _).bind fun _ => ?_
  refine hs.bind fun loopBody => (spanFrom start).bind fun span => .pure ?_
  exact (relocate_forBlock move initial condition increment loopBody span).symm

include he in
theorem returnStatement (start : Location) :
    Moves move (·.relocate move) (returnStatement e start) (returnStatement e' (move start)) := by
  refine (he.optionalBefore .semicolon).bind fun value => (expect _ _).bind fun _ => ?_
  exact (spanFrom start).bind fun _ => .pure rfl

theorem breakStatement (start : Location) :
    Moves move (·.relocate move) (breakStatement start) (breakStatement (move start)) :=
  (expect _ _).bind fun _ => (spanFrom start).bind fun _ => .pure rfl

theorem continueStatement (start : Location) :
    Moves move (·.relocate move) (continueStatement start) (continueStatement (move start)) :=
  (expect _ _).bind fun _ => (spanFrom start).bind fun _ => .pure rfl

include he hs hd

theorem statementWith :
    Moves move (·.relocate move) (statementWith e s d) (statementWith e' s' d') := by
  refine here.bind fun start => peek?.bind fun kind => ?_
  dsimp only [id]
  split
  · exact advance.bind fun _ => he.printStatement start
  · exact advance.bind fun _ => hd.blockStatement start
  · exact advance.bind fun _ => he.ifStatement hs start
  · exact advance.bind fun _ => he.whileStatement hs start
  · exact advance.bind fun _ => he.forStatement hs start
  · exact advance.bind fun _ => he.returnStatement start
  · exact advance.bind fun _ => breakStatement start
  · exact advance.bind fun _ => continueStatement start
  · exact he.expressionStatement

theorem declarationWith (mode : Mode) :
    Moves move (·.relocate move) (declarationWith mode e s d) (declarationWith mode e' s' d') := by
  refine here.bind fun start => peek?.bind fun kind => ?_
  dsimp only [id]
  split
  · exact advance.bind fun _ => hd.classDeclaration mode start
  · exact advance.bind fun _ => (hd.function mode "function" start).map fun _ => rfl
  · exact advance.bind fun _ => he.varDeclaration start
  · exact hs.map fun _ => rfl

end Statements

variable (move) in
/-- Statements and declarations, at any bound on the recursion. -/
theorem statement_declaration (mode : Mode) (n : Nat) :
    Moves move (·.relocate move) (statement mode n) (statement mode n) ∧
      Moves move (Option.map (·.relocate move)) (declaration mode n) (declaration mode n) := by
  induction n with
  | zero => exact ⟨fail _, fail _⟩
  | succ n ih =>
      obtain ⟨hstatement, hdeclaration⟩ := ih
      have hexpression := (assignment_unary move mode n).1
      exact ⟨nested (statementWith hexpression hstatement hdeclaration),
        recovered mode (declarationWith hexpression hstatement hdeclaration mode)⟩

variable (move) in
/-- **Whole programs.** -/
theorem program (mode : Mode) : Moves move (·.relocate move) (program mode) (program mode) := by
  refine here.bind fun start => remaining.bind fun n => ?_
  refine (declarationsFrom (statement_declaration move mode _).2 _ n).bind fun decls => ?_
  exact here.bind fun stop => .pure rfl

end Moves

end Parsing

/-! ## Source texts -/

/-- What can be made of what scanning found. -/
def Scan.recover (s : Scan) : Recovered :=
  match Parsing.program .recovering (Parsing.Cursor.ofScan s) with
  | .ok p c => ⟨p, s.errors.map .lexical ++ c.errors.map .syntactic⟩
  | .error e c =>
    ⟨⟨[], s.finish, s.finish⟩, s.errors.map .lexical ++ (c.errors ++ [e]).map .syntactic⟩

theorem Program.recover_eq (source : List Char) : Program.recover source = (scan source).recover :=
  rfl

/-- **Tokens at other places are read as the same program and the same errors at other places.** -/
theorem Scan.recover_relocate (move : Location → Location) (s : Scan) :
    (s.relocate move).recover = s.recover.relocate move := by
  have hprogram := Parsing.Moves.program move .recovering (Parsing.Cursor.ofScan s)
  have hcursor : (Parsing.Cursor.ofScan s).relocate move =
      Parsing.Cursor.ofScan (s.relocate move) := rfl
  rw [hcursor] at hprogram
  unfold Scan.recover
  rw [hprogram]
  cases Parsing.program .recovering (Parsing.Cursor.ofScan s) with
  | ok p c =>
      simp only [Parsing.relocateEnding, Recovered.relocate, Scan.relocate, Parsing.Cursor.relocate,
        List.map_append, List.map_map]
      rfl
  | error e c =>
      simp only [Parsing.relocateEnding, Recovered.relocate, Scan.relocate, Parsing.Cursor.relocate,
        List.map_append, List.map_map]
      rfl

end Lox
