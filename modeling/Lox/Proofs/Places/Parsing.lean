import Lox.Proofs.Places.Reading
import Lox.Proofs.Places.Scanning
import Lox.Proofs.Parsing.Acceptance

/-!
# Parsing a text behind another one

Every production does the same in other surroundings: on tokens at other places, and with other tokens
behind those that it passes. Of all productions only an `if` looks behind its last token, for an
`else`; so these other tokens must not begin with one. Then a program is parsed declaration by
declaration, as if nothing stood in front of it or behind it.

## Contents
- `Carries.superMethod` to `Carries.assignment_unary`: expressions.
- `Carries.function` to `Carries.statement_declaration`: statements and declarations.
- `declarationsFrom_append`: the declarations of two lists of tokens, one behind the other.
- `parse_append_line`: the program of two texts that are joined by a line feed.
-/

namespace Lox.Parsing

namespace Carries

variable {s : Placing}

/-! ## Expressions -/

theorem disjunction {p q : Parser Expr} (h : Carries s true true (·.relocate s.move) p q) :
    Carries s true true (·.relocate s.move) (disjunction p) (disjunction q) := by
  have hfactor := chain factorOp? (relocate_joinBinary s.move) h
  have hterm := chain termOp? (relocate_joinBinary s.move) hfactor
  have hcomparison := chain comparisonOp? (relocate_joinBinary s.move) hterm
  have hequality := chain equalityOp? (relocate_joinBinary s.move) hcomparison
  have hconjunction := chain andOp? (relocate_joinLogical s.move) hequality
  exact chain orOp? (relocate_joinLogical s.move) hconjunction

theorem superMethod (start : Location) : Carries s false true (·.relocate s.move)
    (superMethod start) (superMethod (s.move start)) := by
  intro c
  refine (CarriesAt.expect _ _).bind_eats fun _ c₁ _ => ?_
  refine (CarriesAt.expect _ _).bind fun method c₂ h₂ => ?_
  exact .spanned start (h₂.started (.inl rfl)) fun span => rfl

section Expressions

variable {p q : Parser Expr} (h : Carries s true true (·.relocate s.move) p q)

include h

theorem grouping (start : Location) : Carries s false true (·.relocate s.move)
    (grouping p start) (grouping q (s.move start)) := by
  intro c
  refine (h c).bind_eats fun inner c₁ _ => ?_
  refine (CarriesAt.expect _ _).bind fun _ c₂ h₂ => ?_
  exact .spanned start (h₂.started (.inl rfl)) fun span => rfl

theorem primary : Carries s false true (·.relocate s.move) (primary p) (primary q) := by
  intro c e c' he
  obtain ⟨t, ts, p', hrest, hp', he⟩ := ok_of_primary he
  have hne : c.rest ≠ [] := by
    rw [hrest]
    exact List.cons_ne_nil t ts
  rcases behindFirst_relocate (R := Carries s false false (·.relocate s.move)) s.move
      (fun e c => .pure rfl) (fun c => (superMethod t.span.start c).forget)
      (fun c => (grouping h t.span.start c).forget) with
    ⟨hnone, -⟩ | ⟨p'', q', hsome, hsome', hbehind⟩
  · exact nomatch hp'.symm.trans hnone
  · cases hp'.symm.trans hsome
    obtain ⟨hpassed, hcarries⟩ := hbehind c.advance e c' he
    refine ⟨(Passed.advance hne).trans hpassed, ?_⟩
    intro hlooks d hd
    obtain ⟨d', hq, hd'⟩ := hcarries hlooks d.advance (hd.advance hne)
    refine ⟨d', ?_, hd'⟩
    rw [primary_eq (hd.rest_eq hrest), hsome']
    exact hq

theorem arguments : Carries s false true (Expr.relocateAll s.move)
    (arguments .strict p) (arguments .strict q) := by
  intro c
  have hitem (count : Nat) : Carries s true true (·.relocate s.move)
      (do Parsing.checkCount .strict "arguments" count; p)
      (do Parsing.checkCount .strict "arguments" count; q) :=
    fun c => (CarriesAt.checkCount _ _).bind_eats fun _ c₁ _ => h c₁
  have hclose (args : List Expr) (c₁ : Cursor) : CarriesAt s false true (Expr.relocateAll s.move)
      (do let _ ← expect .rightParen "')' after arguments"; pure args)
      (do let _ ← expect .rightParen "')' after arguments"; pure (Expr.relocateAll s.move args))
      c₁ := (CarriesAt.expect _ _).bind fun _ _ _ => .pure rfl
  refine .check_bind (.inr rfl) fun empty => ?_
  dsimp only
  refine .ite (.pure_bind (hclose [] c)) ((items hitem c).bind_eats fun args c₁ _ => ?_)
  rw [← Expr.relocateAll_eq_map]
  exact hclose args c₁

theorem callFrom {n n' : Nat} (hle : n ≤ n') (e : Expr) {c : Cursor} (hbound : c.rest.length ≤ n) :
    CarriesAt s true false (·.relocate s.move) (callFrom .strict p n e)
      (callFrom .strict q n' (e.relocate s.move)) c := by
  induction n generalizing n' e c with
  | zero => exact .exhausted hbound rfl
  | succ n ih =>
      obtain ⟨n', rfl⟩ : ∃ k, n' = k + 1 := ⟨n' - 1, by omega⟩
      unfold Parsing.callFrom
      refine .peek_bind (.inl rfl) fun kind? hkind => ?_
      split
      · have hne := Cursor.rest_ne_nil_of_kind? hkind
        refine .forget ((CarriesAt.advance hne).bind_eats fun _ c₁ h₁ => ?_)
        refine (arguments h c₁).closed.bind fun args c₂ h₂ => ?_
        have hlt := h₁.lt
        have hlt' := h₂.lt
        rw [Expr.span_relocate]
        refine (CarriesAt.spanFrom _ (h₂.started (.inl rfl))).bind fun span c₃ h₃ => ?_
        have hle' := h₃.le
        exact ih (by omega) (.call e args span) (by omega)
      · have hne := Cursor.rest_ne_nil_of_kind? hkind
        refine .forget ((CarriesAt.advance hne).bind_eats fun _ c₁ h₁ => ?_)
        refine (CarriesAt.expect _ _).closed.bind fun name c₂ h₂ => ?_
        have hlt := h₁.lt
        have hlt' := h₂.lt
        rw [Expr.span_relocate]
        exact ih (by omega) (.get e name.lexeme ⟨e.span.start, name.span.stop⟩) (by omega)
      · exact .pure rfl

theorem call : Carries s true true (·.relocate s.move) (call .strict p) (call .strict q) := by
  intro c
  refine (primary h c).closed.bind fun e c₁ _ => .remaining_bind fun n hn => ?_
  exact callFrom h hn e (Nat.le_refl _)

omit h in
theorem assignTo (equals : Token) (target value : Expr) :
    Carries s true false (·.relocate s.move) (assignTo .strict equals target value)
      (assignTo .strict (equals.relocate s.move) (target.relocate s.move)
        (value.relocate s.move)) := by
  intro c
  have hstop : (value.relocate s.move).span.stop = s.move value.span.stop := by
    rw [Expr.span_relocate, Span.relocate_stop]
  cases target with
  | «variable» use =>
      refine .pure ?_
      show _ = Expr.assign use.name none (value.relocate s.move)
        ⟨s.move use.span.start, (value.relocate s.move).span.stop⟩
      rw [hstop]
      rfl
  | get object name span =>
      refine .pure ?_
      show _ = Expr.set (object.relocate s.move) name (value.relocate s.move)
        ⟨s.move span.start, (value.relocate s.move).span.stop⟩
      rw [hstop]
      rfl
  | _ =>
      -- the strict parser fails
      intro a c' ha
      exact nomatch ha

theorem assignmentWith {v w : Parser Expr} (hv : Carries s true true (·.relocate s.move) v w) :
    Carries s true true (·.relocate s.move) (assignmentWith .strict p v)
      (assignmentWith .strict q w) := by
  intro c
  refine (disjunction h c).bind fun target c₁ _ => ?_
  refine .check_bind (.inl rfl) fun present => .ite ?_ (.pure rfl)
  refine .forget ((CarriesAt.expect _ _).bind_eats fun equals c₂ _ => ?_)
  exact (hv c₂).bind fun value c₃ _ => assignTo equals target value c₃

theorem unaryWith {v w : Parser Expr} (hv : Carries s true true (·.relocate s.move) v w) :
    Carries s true true (·.relocate s.move) (unaryWith .strict p v) (unaryWith .strict q w) := by
  intro c
  refine .here_bind (.inr rfl) fun start => .peek_bind (.inr rfl) fun kind? hkind => ?_
  cases hop : kind?.bind unaryOp? with
  | none => exact call hv c
  | some op =>
      obtain ⟨kind, rfl, _⟩ := Option.bind_eq_some_iff.1 hop
      have hne := Cursor.rest_ne_nil_of_kind? hkind
      refine (CarriesAt.advance hne).bind_eats fun _ c₁ _ => ?_
      refine (h c₁).bind fun e c₂ h₂ => ?_
      exact .spanned start (h₂.started (.inl rfl)) fun span => rfl

end Expressions

/-- **Assignments and unary expressions**, whose recursion may be bounded by more. -/
theorem assignment_unary {n n' : Nat} (hle : n ≤ n') :
    Carries s true true (·.relocate s.move) (assignment .strict n) (assignment .strict n') ∧
      Carries s true true (·.relocate s.move) (unary .strict n) (unary .strict n') := by
  induction n generalizing n' with
  | zero =>
      constructor
      · intro c a c' ha
        exact nomatch ha
      · intro c a c' ha
        exact nomatch ha
  | succ n ih =>
      obtain ⟨n', rfl⟩ : ∃ k, n' = k + 1 := ⟨n' - 1, by omega⟩
      have hle : n ≤ n' := by omega
      obtain ⟨hassignment, hunary⟩ := ih hle
      constructor
      · intro c
        exact .nested (assignmentWith hunary hassignment _)
      · intro c
        exact .nested (unaryWith hunary hassignment _)

/-! ## Declarations -/

theorem body {p q : Parser (Option Decl)}
    (h : Carries s false true (Option.map (·.relocate s.move)) p q) :
    Carries s false true (Decl.relocateAll s.move) (body p) (body q) := by
  intro c
  refine .remaining_bind fun n hn => ?_
  refine (declarationsFrom h hn (Nat.le_refl _)).bind_eats fun decls c₁ _ => ?_
  exact (CarriesAt.expect _ _).bind fun _ _ _ => .pure rfl

theorem parameter (count : Nat) : Carries s true true (·.relocate s.move)
    (parameter .strict count) (parameter .strict count) := by
  intro c
  refine .closed ((CarriesAt.checkCount _ _).bind_eats fun _ c₁ _ => ?_)
  exact (CarriesAt.expect _ _).bind fun name _ _ => .pure rfl

theorem function {p q : Parser (Option Decl)}
    (h : Carries s false true (Option.map (·.relocate s.move)) p q) (kind : String)
    (start : Location) :
    Carries s false true (·.relocate s.move) (function .strict p kind start)
      (function .strict q kind (s.move start)) := by
  intro c
  refine (CarriesAt.expect _ _).bind_eats fun name c₁ _ => ?_
  refine (CarriesAt.expect _ _).bind_eats fun _ c₂ _ => ?_
  refine .check_bind (.inr rfl) fun empty => ?_
  dsimp only
  -- what comes behind the parameters, whether there are any or not
  have hrest (params : List Param) (c₃ : Cursor) :
      CarriesAt s false true (FunctionDecl.relocate s.move)
        (do
          let _ ← expect .rightParen "')' after parameters"
          let _ ← expect .leftBrace ("'\x7b' before " ++ kind ++ " body")
          let decls ← Parsing.body p
          pure (FunctionDecl.mk name.lexeme params decls (← Parsing.spanFrom start)))
        (do
          let _ ← expect .rightParen "')' after parameters"
          let _ ← expect .leftBrace ("'\x7b' before " ++ kind ++ " body")
          let decls ← Parsing.body q
          pure (FunctionDecl.mk name.lexeme (params.map (·.relocate s.move)) decls
            (← Parsing.spanFrom (s.move start)))) c₃ := by
    refine (CarriesAt.expect _ _).bind_eats fun _ c₄ _ => ?_
    refine (CarriesAt.expect _ _).bind_eats fun _ c₅ _ => ?_
    refine (body h c₅).bind fun decls c₆ h₆ => ?_
    exact .spanned start (h₆.started (.inl rfl)) fun span => rfl
  refine .ite (.pure_bind (hrest [] c₂)) ?_
  exact (items parameter c₂).bind_eats fun params c₃ _ => hrest params c₃

theorem methodsFrom {p q : Location → Parser FunctionDecl}
    (h : ∀ start, Carries s false true (·.relocate s.move) (p start) (q (s.move start)))
    {n n' : Nat} (hle : n ≤ n') {c : Cursor} (hbound : c.rest.length ≤ n) :
    CarriesAt s true false (FunctionDecl.relocateAll s.move) (methodsFrom p n)
      (methodsFrom q n') c := by
  induction n generalizing n' c with
  | zero => exact .exhausted hbound rfl
  | succ n ih =>
      obtain ⟨n', rfl⟩ : ∃ k, n' = k + 1 := ⟨n' - 1, by omega⟩
      unfold Parsing.methodsFrom
      refine .peek_bind (.inl rfl) fun kind? _ => .ite (.pure rfl) ?_
      refine .here_bind (.inl rfl) fun start => ?_
      refine .forget ((h start c).closed.bind fun first c₁ h₁ => ?_)
      have hlt := h₁.lt
      exact (ih (by omega) (by omega)).bind fun others _ _ => .pure rfl

theorem superclassClause : Carries s true false (Option.map (·.relocate s.move))
    superclassClause superclassClause := by
  intro c
  refine .accept_bind (.inl rfl) (fun c₁ _ => ?_) (.pure rfl)
  exact .forget ((CarriesAt.expect _ _).closed.bind fun name _ _ => .pure rfl)

theorem classDeclaration {p q : Parser (Option Decl)}
    (h : Carries s false true (Option.map (·.relocate s.move)) p q) (start : Location) :
    Carries s false true (·.relocate s.move) (classDeclaration .strict p start)
      (classDeclaration .strict q (s.move start)) := by
  intro c
  refine (CarriesAt.expect _ _).bind_eats fun name c₁ _ => ?_
  refine (superclassClause c₁).bind_eats fun superclass c₂ _ => ?_
  refine (CarriesAt.expect _ _).bind_eats fun _ c₃ _ => .remaining_bind fun n hn => ?_
  refine (methodsFrom (function h "method") hn (Nat.le_refl _)).bind_eats fun methods c₄ _ => ?_
  refine (CarriesAt.expect _ _).bind fun _ c₅ h₅ => ?_
  exact .spanned start (h₅.started (.inl rfl)) fun span => rfl

theorem varDeclaration {p q : Parser Expr} (h : Carries s true true (·.relocate s.move) p q)
    (start : Location) :
    Carries s false true (·.relocate s.move) (varDeclaration p start)
      (varDeclaration q (s.move start)) := by
  intro c
  refine (CarriesAt.expect _ _).bind_eats fun name c₁ _ => ?_
  have hrest (initial : Option Expr) (c₂ : Cursor) : CarriesAt s false true (·.relocate s.move)
      (do
        let _ ← expect .semicolon "';' after variable declaration"
        pure (Decl.var name.lexeme initial (← Parsing.spanFrom start)))
      (do
        let _ ← expect .semicolon "';' after variable declaration"
        pure (Decl.var name.lexeme (initial.map (·.relocate s.move))
          (← Parsing.spanFrom (s.move start)))) c₂ := by
    refine (CarriesAt.expect _ _).bind fun _ c₃ h₃ => ?_
    exact .spanned start (h₃.started (.inl rfl)) fun span => rfl
  refine .accept_bind (.inr rfl) (fun c₂ _ => ?_) (.pure_bind (hrest none c₁))
  have hinitial := mapSome h c₂
  exact hinitial.bind_eats fun initial c₃ _ => hrest initial c₃

/-! ## Statements -/

section Statements

variable {e e' : Parser Expr} {p p' : Parser Stmt} {d d' : Parser (Option Decl)}
  (he : Carries s true true (·.relocate s.move) e e')
  (hp : Carries s false true (·.relocate s.move) p p')
  (hd : Carries s false true (Option.map (·.relocate s.move)) d d')

include he in
theorem expressionStatement : Carries s false true (·.relocate s.move)
    (expressionStatement e) (expressionStatement e') := by
  intro c
  refine .here_bind (.inr rfl) fun start => (he c).bind_eats fun value c₁ _ => ?_
  refine (CarriesAt.expect _ _).bind fun _ c₂ h₂ => ?_
  exact .spanned start (h₂.started (.inl rfl)) fun span => rfl

include he in
theorem printStatement (start : Location) : Carries s false true (·.relocate s.move)
    (printStatement e start) (printStatement e' (s.move start)) := by
  intro c
  refine (he c).bind_eats fun value c₁ _ => ?_
  refine (CarriesAt.expect _ _).bind fun _ c₂ h₂ => ?_
  exact .spanned start (h₂.started (.inl rfl)) fun span => rfl

include hd in
theorem blockStatement (start : Location) : Carries s false true (·.relocate s.move)
    (blockStatement d start) (blockStatement d' (s.move start)) := by
  intro c
  refine (body hd c).bind fun decls c₁ h₁ => ?_
  exact .spanned start (h₁.started (.inl rfl)) fun span => rfl

include he hp in
/-- An `if` looks behind its last token for an `else`. -/
theorem ifStatement (helse : s.tail.head?.map (·.kind) ≠ some .else) (start : Location) :
    Carries s false true (·.relocate s.move) (ifStatement e p start)
      (ifStatement e' p' (s.move start)) := by
  intro c
  refine (CarriesAt.expect _ _).bind_eats fun _ c₁ _ => ?_
  refine (he c₁).bind_eats fun condition c₂ _ => ?_
  refine (CarriesAt.expect _ _).bind_eats fun _ c₃ _ => ?_
  refine (hp c₃).bind fun thenBranch c₄ h₄ => ?_
  refine .accept_bind_of_tail helse (fun c₅ _ => ?_) ?_
  · have helse := mapSome hp c₅
    refine .forget (helse.bind fun elseBranch c₆ h₆ => ?_)
    refine .spanned start (h₆.started (.inl rfl)) fun span => ?_
    cases elseBranch <;> rfl
  · exact .pure_bind (.spanned start (h₄.started (.inl rfl)) fun span => rfl)

include he hp in
theorem whileStatement (start : Location) : Carries s false true (·.relocate s.move)
    (whileStatement e p start) (whileStatement e' p' (s.move start)) := by
  intro c
  refine (CarriesAt.expect _ _).bind_eats fun _ c₁ _ => ?_
  refine (he c₁).bind_eats fun condition c₂ _ => ?_
  refine (CarriesAt.expect _ _).bind_eats fun _ c₃ _ => ?_
  refine (hp c₃).bind fun loopBody c₄ h₄ => ?_
  exact .spanned start (h₄.started (.inl rfl)) fun span => rfl

include he in
theorem forInitializer : Carries s false true (Option.map (·.relocate s.move))
    (forInitializer e) (forInitializer e') := by
  intro c
  refine .here_bind (.inr rfl) fun start => .peek_bind (.inr rfl) fun kind? hkind => ?_
  split
  · have hne := Cursor.rest_ne_nil_of_kind? hkind
    exact (CarriesAt.advance hne).bind fun _ _ _ => .pure rfl
  · exact .word hkind (mapSome (varDeclaration he start))
  · exact (expressionStatement he c).map fun _ => rfl

include he in
theorem optionalBefore (kind : Token.Kind) : Carries s true false (Option.map (·.relocate s.move))
    (optionalBefore kind e) (optionalBefore kind e') := by
  intro c
  refine .check_bind (.inl rfl) fun present => .ite (.pure rfl) ?_
  exact .forget (mapSome he c)

include he hp in
theorem forStatement (start : Location) : Carries s false true (·.relocate s.move)
    (forStatement e p start) (forStatement e' p' (s.move start)) := by
  intro c
  refine (CarriesAt.expect _ _).bind_eats fun _ c₁ _ => ?_
  refine (forInitializer he c₁).bind_eats fun initial c₂ _ => ?_
  refine (optionalBefore he .semicolon c₂).bind_eats fun condition c₃ _ => ?_
  refine (CarriesAt.expect _ _).bind_eats fun _ c₄ _ => ?_
  refine (optionalBefore he .rightParen c₄).bind_eats fun increment c₅ _ => ?_
  refine (CarriesAt.expect _ _).bind_eats fun _ c₆ _ => ?_
  refine (hp c₆).bind fun loopBody c₇ h₇ => ?_
  exact .spanned start (h₇.started (.inl rfl)) fun span => relocate_forBlock s.move _ _ _ _ span

include he in
theorem returnStatement (start : Location) : Carries s false true (·.relocate s.move)
    (returnStatement e start) (returnStatement e' (s.move start)) := by
  intro c
  refine (optionalBefore he .semicolon c).bind_eats fun value c₁ _ => ?_
  refine (CarriesAt.expect _ _).bind fun _ c₂ h₂ => ?_
  exact .spanned start (h₂.started (.inl rfl)) fun span => rfl

theorem breakStatement (start : Location) : Carries s false true (·.relocate s.move)
    (breakStatement start) (breakStatement (s.move start)) := by
  intro c
  refine (CarriesAt.expect _ _).bind fun _ c₁ h₁ => ?_
  exact .spanned start (h₁.started (.inl rfl)) fun span => rfl

theorem continueStatement (start : Location) : Carries s false true (·.relocate s.move)
    (continueStatement start) (continueStatement (s.move start)) := by
  intro c
  refine (CarriesAt.expect _ _).bind fun _ c₁ h₁ => ?_
  exact .spanned start (h₁.started (.inl rfl)) fun span => rfl

include he hp hd in
theorem statementWith (helse : s.tail.head?.map (·.kind) ≠ some .else) :
    Carries s false true (·.relocate s.move) (statementWith e p d) (statementWith e' p' d') := by
  intro c
  refine .here_bind (.inr rfl) fun start => .peek_bind (.inr rfl) fun kind? hkind => ?_
  split
  · exact .word hkind (printStatement he start)
  · exact .word hkind (blockStatement hd start)
  · exact .word hkind (ifStatement he hp helse start)
  · exact .word hkind (whileStatement he hp start)
  · exact .word hkind (forStatement he hp start)
  · exact .word hkind (returnStatement he start)
  · exact .word hkind (breakStatement start)
  · exact .word hkind (continueStatement start)
  · exact expressionStatement he c

include he hp hd in
theorem declarationWith : Carries s false true (·.relocate s.move)
    (declarationWith .strict e p d) (declarationWith .strict e' p' d') := by
  intro c
  refine .here_bind (.inr rfl) fun start => .peek_bind (.inr rfl) fun kind? hkind => ?_
  split
  · exact .word hkind (classDeclaration hd start)
  · exact .word hkind fun c₁ => (function hd "function" start c₁).map fun _ => rfl
  · exact .word hkind (varDeclaration he start)
  · exact (hp c).map fun _ => rfl

end Statements

/-- **Statements and declarations**, whose recursion may be bounded by more. -/
theorem statement_declaration (helse : s.tail.head?.map (·.kind) ≠ some .else) {n n' : Nat}
    (hle : n ≤ n') :
    Carries s false true (·.relocate s.move) (statement .strict n) (statement .strict n') ∧
      Carries s false true (Option.map (·.relocate s.move)) (declaration .strict n)
        (declaration .strict n') := by
  induction n generalizing n' with
  | zero =>
      constructor
      · intro c a c' ha
        exact nomatch ha
      · intro c a c' ha
        exact nomatch ha
  | succ n ih =>
      obtain ⟨n', rfl⟩ : ∃ k, n' = k + 1 := ⟨n' - 1, by omega⟩
      have hle : n ≤ n' := by omega
      obtain ⟨hstatement, hdeclaration⟩ := ih hle
      have hexpression := (assignment_unary (s := s) hle).1
      constructor
      · intro c
        exact .nested (statementWith hexpression hstatement hdeclaration helse _)
      · intro c
        exact .recovered (declarationWith hexpression hstatement hdeclaration c)

end Carries

/-! ## Programs -/

section Programs

variable {s : Placing}

/-- At the end of the tokens there are no more declarations. -/
theorem declarationsFrom_end {p : Parser (Option Decl)} (n : Nat) {c : Cursor}
    (hnil : c.rest = []) : declarationsFrom p (·.isNone) n c = .ok [] c := by
  cases n with
  | zero => rfl
  | succ n =>
      rw [declarationsFrom, bind_apply]
      simp only [peek?, Cursor.kind?_of_nil hnil]
      rfl

/-- A declaration is followed by the others. -/
theorem declarationsFrom_succ {p : Parser (Option Decl)} (n : Nat) {c : Cursor} (hne : c.rest ≠ []) :
    declarationsFrom p (·.isNone) (n + 1) c =
      (do
        let first ← p
        let others ← declarationsFrom p (·.isNone) n
        pure (first.toList ++ others)) c := by
  obtain ⟨t, ts, hrest⟩ := List.exists_cons_of_ne_nil hne
  rw [declarationsFrom, bind_apply]
  simp only [peek?, Cursor.kind?_of_cons hrest]
  rfl

/-- **Declarations are read one by one.** What is read up to the end of the tokens is read from a
carried cursor too, by a loop that reads so many declarations and no more. -/
theorem declarationsFrom_carried {p q : Parser (Option Decl)}
    (h : Carries s false true (Option.map (·.relocate s.move)) p q) {n : Nat} {c c' d : Cursor}
    {ds : List Decl} (hbound : c.rest.length ≤ n)
    (hrun : declarationsFrom p (·.isNone) n c = .ok ds c') (hd : Carried s c d) :
    c'.rest = [] ∧ ∃ m d', m ≤ c.rest.length ∧ Carried s c' d' ∧
      declarationsFrom q (·.isNone) m d = .ok (Decl.relocateAll s.move ds) d' := by
  induction hlength : c.rest.length using Nat.strongRecOn generalizing n c d ds with
  | ind length ih =>
      by_cases hnil : c.rest = []
      · rw [declarationsFrom_end n hnil] at hrun
        cases hrun
        exact ⟨hnil, 0, d, Nat.zero_le _, hd, rfl⟩
      have hpos := List.length_pos_iff.2 hnil
      obtain ⟨n, rfl⟩ : ∃ m, n = m + 1 := ⟨n - 1, by omega⟩
      rw [declarationsFrom_succ n hnil] at hrun
      obtain ⟨first, c₁, hfirst, hrun⟩ := ok_of_bind hrun
      obtain ⟨others, c₂, hothers, hrun⟩ := ok_of_bind hrun
      cases hrun
      -- the first declaration is read alike, and the bounds are still enough for the others
      obtain ⟨hpassed, hcarries⟩ := h c first c₁ hfirst
      obtain ⟨d₁, hq, hd₁⟩ := hcarries nofun d hd
      have hlt := hpassed.lt
      have hbound₁ : c₁.rest.length ≤ n := by omega
      obtain ⟨hend, m, d', hm, hd', hrest⟩ := ih c₁.rest.length (by omega) hbound₁ hothers hd₁ rfl
      refine ⟨hend, m + 1, d', by omega, hd', ?_⟩
      have hne : d.rest ≠ [] := by
        rw [hd.rest]
        simp [hnil]
      rw [declarationsFrom_succ m hne, bind_of_ok hq, bind_of_ok hrest]
      simp only [Decl.relocateAll_append, Decl.relocateAll_toList]
      rfl

/-- A loop with a greater bound goes on where the one with the smaller bound ends. -/
theorem declarationsFrom_add {p : Parser (Option Decl)} (m k : Nat) (c : Cursor) :
    declarationsFrom p (·.isNone) (m + k) c =
      (do
        let first ← declarationsFrom p (·.isNone) m
        let others ← declarationsFrom p (·.isNone) k
        pure (first ++ others)) c := by
  induction m generalizing c with
  | zero =>
      have hnone : declarationsFrom p (·.isNone) 0 c = .ok [] c := rfl
      rw [Nat.zero_add, bind_of_ok hnone]
      simp only [List.nil_append, bind_pure]
  | succ m ih =>
      by_cases hnil : c.rest = []
      · rw [declarationsFrom_end _ hnil, bind_of_ok (declarationsFrom_end _ hnil),
          bind_of_ok (declarationsFrom_end _ hnil)]
        rfl
      rw [Nat.succ_add, declarationsFrom_succ _ hnil, bind_congr_at (declarationsFrom_succ m hnil)]
      simp only [bind_assoc, pure_bind, List.append_assoc]
      cases hp : p c with
      | ok first c₁ =>
          rw [bind_of_ok hp, bind_of_ok hp]
          have hothers := bind_congr_at (f := fun others => pure (first.toList ++ others)) (ih c₁)
          simp only [bind_assoc, pure_bind] at hothers
          exact hothers
      | error e c₁ => rw [bind_of_error hp, bind_of_error hp]

/-- The declarations of the tail follow; the bound that is left is reduced by no more than the tokens
that were passed. -/
theorem declarationsFrom_append {p q : Parser (Option Decl)}
    (h : Carries s false true (Option.map (·.relocate s.move)) p q) {n n' : Nat} {c c' d : Cursor}
    {ds : List Decl} (hbound : c.rest.length ≤ n) (hle : c.rest.length ≤ n')
    (hrun : declarationsFrom p (·.isNone) n c = .ok ds c') (hd : Carried s c d) :
    c'.rest = [] ∧ ∃ d' k, Carried s c' d' ∧ n' ≤ k + c.rest.length ∧
      declarationsFrom q (·.isNone) n' d =
        (do
          let others ← declarationsFrom q (·.isNone) k
          pure (Decl.relocateAll s.move ds ++ others)) d' := by
  obtain ⟨hend, m, d', hm, hd', hfirst⟩ := declarationsFrom_carried h hbound hrun hd
  refine ⟨hend, d', n' - m, hd', by omega, ?_⟩
  obtain ⟨k, rfl⟩ := Nat.exists_eq_add_of_le (Nat.le_trans hm hle)
  rw [declarationsFrom_add, bind_of_ok hfirst, Nat.add_sub_cancel_left]

/-- Without a tail nothing follows. -/
theorem declarationsFrom_relocate {p q : Parser (Option Decl)}
    (h : Carries s false true (Option.map (·.relocate s.move)) p q) (htail : s.tail = [])
    {n n' : Nat} {c c' d : Cursor} {ds : List Decl} (hbound : c.rest.length ≤ n)
    (hle : c.rest.length ≤ n') (hrun : declarationsFrom p (·.isNone) n c = .ok ds c')
    (hd : Carried s c d) :
    ∃ d', declarationsFrom q (·.isNone) n' d = .ok (Decl.relocateAll s.move ds) d' := by
  obtain ⟨hend, d', k, hd', -, hrest⟩ := declarationsFrom_append h hbound hle hrun hd
  have hnil : d'.rest = [] := by
    rw [hd'.rest, hend, htail]
    rfl
  refine ⟨d', ?_⟩
  rw [hrest, bind_of_ok (declarationsFrom_end k hnil), List.append_nil]
  rfl

end Programs

/-- The declarations of a cursor with its tokens. -/
theorem program_ok_iff {c c' : Cursor} (ds : List Decl) :
    (∃ P, program .strict c = .ok P c' ∧ P.body = ds) ↔
      declarationsFrom (declaration .strict (recursionBound c.rest.length)) (·.isNone) c.rest.length c
        = .ok ds c' := by
  constructor
  · rintro ⟨P, hP, rfl⟩
    obtain ⟨start, c₁, hstart, hP⟩ := ok_of_bind hP
    cases hstart
    obtain ⟨n, c₂, hn, hP⟩ := ok_of_bind hP
    cases hn
    obtain ⟨ds, c₃, hds, hP⟩ := ok_of_bind hP
    cases hP
    exact hds
  · intro hds
    refine ⟨⟨ds, c.here, c'.here⟩, ?_, rfl⟩
    show (declarationsFrom (declaration .strict (recursionBound c.rest.length)) (·.isNone)
      c.rest.length >>= fun ds => do pure (Program.mk ds ⟨c.here, ← here⟩)) c = _
    rw [bind_of_ok hds]
    rfl

/-- No program begins with an `else`. -/
theorem head_ne_else_of_program {c c' : Cursor} {P : Program} (h : program .strict c = .ok P c') :
    c.rest.head?.map (·.kind) ≠ some .else := by
  obtain ⟨-, hderives⟩ := Reads.program _ _ _ h
  generalize Decl.bareAll P.body = ds at hderives
  generalize hvs : ([] : List Token) = vs at hderives
  cases hderives with
  | nil =>
      rw [← hvs]
      exact nofun
  | cons hd hds => exact hd.begins.head_ne (by decide)

/-- **Parsing is compositional at a line feed.** -/
theorem parse_append_line {p q : List Char} {P Q : Program} (hP : Program.parse p = .ok P)
    (hQ : Program.parse q = .ok Q) :
    ∃ R, Program.parse (p ++ '\n' :: q) = .ok R ∧
      R.body = P.body ++ Decl.relocateAll (Location.behind p) Q.body := by
  obtain ⟨hlexical, c, hP⟩ := (parse_ok_iff p P).1 hP
  obtain ⟨hlexical', c', hQ⟩ := (parse_ok_iff q Q).1 hQ
  have hdepth : c.depth = 0 := (Reads.program _ _ _ hP).1
  have helse := head_ne_else_of_program hQ
  have hP := (program_ok_iff P.body).1 ⟨P, hP, rfl⟩
  have hQ := (program_ok_iff Q.body).1 ⟨Q, hQ, rfl⟩
  let joined := Cursor.ofScan (scan (p ++ '\n' :: q))
  let tail := (scan q).tokens.map (·.relocate (Location.behind p))
  have htokens : joined.rest = (scan p).tokens.map (·.relocate id) ++ tail := by
    show (scan (p ++ '\n' :: q)).tokens = _
    rw [scan_append_line hlexical]
    congr 1
    exact (List.map_id _).symm
  have hlength : joined.rest.length = (scan p).tokens.length + (scan q).tokens.length := by
    rw [htokens, List.length_append, List.length_map, List.length_map]
  -- the first text is read in front of the tokens of the second one
  have hcarried : Carried ⟨id, tail⟩ (Cursor.ofScan (scan p)) joined := ⟨htokens, rfl, nofun⟩
  have htail : tail.head?.map (·.kind) ≠ some .else := by
    rw [List.head?_map, Option.map_map]
    exact helse
  have hle : recursionBound (scan p).tokens.length ≤ recursionBound joined.rest.length := by
    unfold recursionBound
    omega
  have hfirst := (Carries.statement_declaration (s := ⟨id, tail⟩) htail hle).2
  have hmore : (scan p).tokens.length ≤ joined.rest.length := by omega
  obtain ⟨hend, d, k, hd, hk, hrun⟩ :=
    declarationsFrom_append hfirst (Nat.le_refl _) hmore hP hcarried
  -- the second text is read behind the first one, with nothing behind it
  have hcarried' : Carried ⟨Location.behind p, []⟩ (Cursor.ofScan (scan q)) d := by
    refine ⟨?_, ?_, nofun⟩
    · rw [hd.rest, hend, List.append_nil]
      rfl
    · rw [hd.depth, hdepth]
      rfl
  have hle' : recursionBound (scan q).tokens.length ≤ recursionBound joined.rest.length := by
    unfold recursionBound
    omega
  have hsecond := (Carries.statement_declaration (s := ⟨Location.behind p, []⟩) nofun hle').2
  have hk' : (scan q).tokens.length ≤ k := by
    have hk : joined.rest.length ≤ k + (scan p).tokens.length := hk
    omega
  obtain ⟨d', hrun'⟩ := declarationsFrom_relocate hsecond rfl (Nat.le_refl _) hk' hQ hcarried'
  have hjoined : declarationsFrom (declaration .strict (recursionBound joined.rest.length))
      (·.isNone) joined.rest.length joined =
        .ok (P.body ++ Decl.relocateAll (Location.behind p) Q.body) d' := by
    rw [hrun, bind_of_ok hrun', Decl.relocateAll_id]
    rfl
  obtain ⟨R, hR, hbody⟩ := (program_ok_iff _).2 hjoined
  exact ⟨R, (parse_ok_iff _ R).2 ⟨scan_errors_append_line hlexical hlexical', d', hR⟩, hbody⟩

end Lox.Parsing
