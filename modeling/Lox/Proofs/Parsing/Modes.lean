import Lox.Proofs.Parsing.Steps

/-!
# The two modes of the parser

A strict parse ends with its first error, a recovering one records its errors and goes on. Both use
the same productions, and they move in **lockstep** up to the first error: a recovering parser
either does what the strict one does, or the first error it knows of is the one that ended the
strict parse. Nothing that happens later takes a recorded error back, so lockstep survives
sequencing, and from there every production.

## Contents
- `Agree`: how the results of the two modes go together.
- `Lockstep`: a strict and a recovering parser that agree from every cursor without errors.
- `Lockstep.bind` and the other steps, then one lemma for each production.
- `Total`: parsers that never fail, a recovering parse of a program among them.
- `strict_iff_recovering`: what both modes say of a source text.
-/

namespace Lox.Parsing

/-- How a parser ends: with a value or an error, and always with a cursor. -/
abbrev Ending (α : Type) := EStateM.Result SyntaxError Cursor α

/-- The cursor with which a parser ends. -/
def Ending.cursor {α : Type} : Ending α → Cursor
  | .ok _ c => c
  | .error _ c => c

/-- How the ending of a recovering parser goes with the ending of a strict one, when no error was
recorded before. -/
inductive Agree {α : Type} : Ending α → Ending α → Prop
  /-- There was no error, and both are at the same point. -/
  | together {a : α} {c : Cursor} : c.errors = [] → Agree (.ok a c) (.ok a c)
  /-- The strict parse has ended. The other one has recorded that error first, and goes on. -/
  | ahead {e : SyntaxError} {c : Cursor} {b : α} {c' : Cursor} :
      c'.errors.head? = some e → Agree (.error e c) (.ok b c')
  /-- Both have failed, the recovering one perhaps later and with another error. -/
  | failed {e : SyntaxError} {c : Cursor} {e' : SyntaxError} {c' : Cursor} :
      (c'.errors ++ [e']).head? = some e → Agree (.error e c) (.error e' c')

/-- A strict and a recovering parser that agree from every cursor without errors; the recovering one
never takes an error back. -/
structure Lockstep {α : Type} (strict recovering : Parser α) : Prop where
  agree : ∀ c : Cursor, c.errors = [] → Agree (strict c) (recovering c)
  keeps : ∀ c : Cursor, c.errors <+: (Ending.cursor (recovering c)).errors

/-- A parser that records no errors. -/
def Quiet {α : Type} (p : Parser α) : Prop :=
  ∀ c : Cursor, (Ending.cursor (p c)).errors = c.errors

/-- The first of a list of errors stays first when the list grows. -/
theorem head?_of_isPrefix {es es' : List SyntaxError} {e : SyntaxError} (h : es <+: es')
    (he : es.head? = some e) : es'.head? = some e := by
  obtain ⟨tail, rfl⟩ := h
  rw [List.head?_append, he]
  rfl

namespace Lockstep

variable {α β : Type}

/-- A parser that records nothing does the same in both modes. -/
theorem of_quiet {p : Parser α} (h : Quiet p) : Lockstep p p where
  agree c hc := by
    have hp := h c
    cases hpc : p c with
    | ok a c' =>
        rw [hpc] at hp
        exact .together (hp.trans hc)
    | error e c' =>
        rw [hpc] at hp
        have hnil : c'.errors = [] := hp.trans hc
        exact .failed (by rw [hnil]; rfl)
  keeps c := by simp only [h c, List.prefix_refl]

/-- Parsers that do at each cursor what some parsers in lockstep do there. -/
theorem of_eq {p q : Parser α}
    (h : ∀ c, ∃ p' q' : Parser α, p c = p' c ∧ q c = q' c ∧ Lockstep p' q') : Lockstep p q where
  agree c hc := by
    obtain ⟨p', q', hp, hq, hstep⟩ := h c
    rw [hp, hq]
    exact hstep.agree c hc
  keeps c := by
    obtain ⟨p', q', -, hq, hstep⟩ := h c
    rw [hq]
    exact hstep.keeps c

/-- **Sequencing.** Once the recovering parser is ahead, the rest of it only adds errors behind the
first one. -/
theorem bind {p q : Parser α} {f g : α → Parser β} (hp : Lockstep p q)
    (hf : ∀ a, Lockstep (f a) (g a)) : Lockstep (p >>= f) (q >>= g) where
  agree c hc := by
    rw [bind_apply, bind_apply]
    have h := hp.agree c hc
    generalize p c = r at h
    generalize q c = r' at h
    cases h with
    | together hnil => exact (hf _).agree _ hnil
    | @ahead e c₁ b c' he =>
        -- whatever the recovering parser does from here on, its first error is there already
        have hkeeps := (hf b).keeps c'
        show Agree (.error e c₁) (g b c')
        cases hg : g b c' with
        | ok d c'' =>
            rw [hg] at hkeeps
            exact .ahead (head?_of_isPrefix hkeeps he)
        | error e'' c'' =>
            rw [hg] at hkeeps
            exact .failed (head?_of_isPrefix (hkeeps.trans (List.prefix_append _ _)) he)
    -- neither of the two gets to what comes second
    | failed he => exact .failed he
  keeps c := by
    have hkeeps := hp.keeps c
    cases hq : q c with
    | ok b c' =>
        rw [bind_of_ok hq]
        rw [hq] at hkeeps
        exact hkeeps.trans ((hf b).keeps c')
    | error e c' =>
        rw [bind_of_error hq]
        rw [hq] at hkeeps
        exact hkeeps

theorem pure (a : α) : Lockstep (Pure.pure a : Parser α) (Pure.pure a) := of_quiet fun _ => rfl

theorem map {p q : Parser α} (f : α → β) (h : Lockstep p q) : Lockstep (f <$> p) (f <$> q) := by
  rw [map_eq_pure_bind, map_eq_pure_bind]
  exact h.bind fun a => .pure (f a)

theorem ite {condition : Bool} {p q p' q' : Parser α} (h : Lockstep p q) (h' : Lockstep p' q') :
    Lockstep (if condition = true then p else p') (if condition = true then q else q') := by
  cases condition with
  | true => exact h
  | false => exact h'

/-! ## Steps that all productions share -/

theorem peek? : Lockstep peek? peek? := of_quiet fun _ => rfl

theorem here : Lockstep here here := of_quiet fun _ => rfl

theorem remaining : Lockstep remaining remaining := of_quiet fun _ => rfl

theorem fail (cause : SyntaxError.Cause) : Lockstep (fail cause : Parser α) (fail cause) :=
  of_quiet fun _ => rfl

theorem spanFrom (start : Location) : Lockstep (spanFrom start) (spanFrom start) :=
  of_quiet fun _ => rfl

theorem check (kind : Token.Kind) : Lockstep (check kind) (check kind) := of_quiet fun _ => rfl

theorem advance : Lockstep advance advance := of_quiet Cursor.errors_advance

theorem accept (kind : Token.Kind) : Lockstep (accept kind) (accept kind) := by
  refine of_quiet fun c => ?_
  by_cases hkind : c.kind? = some kind
  · rw [accept_of_kind hkind]
    exact c.errors_advance
  · rw [accept_of_ne hkind]
    rfl

theorem expect (kind : Token.Kind) (what : String) :
    Lockstep (expect kind what) (expect kind what) := by
  refine of_quiet fun c => ?_
  by_cases hkind : c.kind? = some kind
  · obtain ⟨t, ts, hrest, ht⟩ := Cursor.exists_cons_of_kind? hkind
    rw [expect_of_kind hrest ht]
    exact c.errors_advance
  · rw [expect_of_ne hkind]
    rfl

/-- A nesting level closes again in both modes, whatever becomes of what is inside. -/
theorem nested {p q : Parser α} (h : Lockstep p q) : Lockstep (nested p) (nested q) where
  agree c hc := by
    unfold Parsing.nested
    split
    · exact .failed (by rw [hc]; rfl)
    · have hagree := h.agree { c with depth := c.depth + 1 } hc
      generalize p { c with depth := c.depth + 1 } = r at hagree
      generalize q { c with depth := c.depth + 1 } = r' at hagree
      cases hagree with
      | together hnil => exact .together hnil
      | ahead he => exact .ahead he
      | failed he => exact .failed he
  keeps c := by
    unfold Parsing.nested
    split
    · exact List.prefix_refl _
    · have hkeeps := h.keeps { c with depth := c.depth + 1 }
      cases hq : q { c with depth := c.depth + 1 } with
      | ok b c' =>
          rw [hq] at hkeeps
          exact hkeeps
      | error e c' =>
          rw [hq] at hkeeps
          exact hkeeps

/-- The step at which the modes part: what one throws the other records. -/
theorem report (e : SyntaxError) :
    Lockstep (report .strict e) (report .recovering e) where
  agree c hc := .ahead (by simp [Cursor.record, hc])
  keeps c := List.prefix_append _ _

theorem errors_synchronize (c : Cursor) : c.synchronize.errors = c.errors := c.errors_advance

/-- A declaration that failed was noticed no later than the strict parse noticed it. -/
theorem recovered {p q : Parser α} (h : Lockstep p q) :
    Lockstep (recovered .strict p) (recovered .recovering q) where
  agree c hc := by
    unfold Parsing.recovered
    have hagree := h.agree c hc
    generalize p c = r at hagree
    generalize q c = r' at hagree
    cases hagree with
    | together hnil => exact .together hnil
    | ahead he => exact .ahead he
    -- what would end the recovering parse is recorded here, behind the errors it has
    | failed he => exact .ahead (by rw [errors_synchronize]; exact he)
  keeps c := by
    unfold Parsing.recovered
    have hkeeps := h.keeps c
    cases hq : q c with
    | ok b c' =>
        rw [hq] at hkeeps
        exact hkeeps
    | error e c' =>
        rw [hq] at hkeeps
        show c.errors <+: (c'.record e).synchronize.errors
        rw [errors_synchronize]
        exact hkeeps.trans (List.prefix_append _ _)

theorem checkCount (what : String) (count : Nat) :
    Lockstep (checkCount .strict what count) (checkCount .recovering what count) where
  agree c hc := by
    unfold Parsing.checkCount
    split
    · exact (report _).agree c hc
    · exact .together hc
  keeps c := by
    unfold Parsing.checkCount
    split
    · exact (report _).keeps c
    · exact List.prefix_refl _

/-! ## Expressions -/

theorem chainFrom {γ : Type} (operator? : Token.Kind → Option γ) {p q : Parser Expr}
    (join : γ → Expr → Expr → Expr) (h : Lockstep p q) (n : Nat) (left : Expr) :
    Lockstep (chainFrom operator? p join n left) (chainFrom operator? q join n left) := by
  induction n generalizing left with
  | zero => exact .pure left
  | succ n ih =>
      unfold Parsing.chainFrom
      refine peek?.bind fun kind => ?_
      cases kind.bind operator? with
      | none => exact .pure left
      | some op => exact advance.bind fun _ => h.bind fun right => ih _

theorem chain {γ : Type} (operator? : Token.Kind → Option γ) {p q : Parser Expr}
    (join : γ → Expr → Expr → Expr) (h : Lockstep p q) :
    Lockstep (chain operator? p join) (chain operator? q join) :=
  h.bind fun left => remaining.bind fun n => chainFrom operator? join h n left

theorem itemsFrom {p q : Nat → Parser α} (h : ∀ count, Lockstep (p count) (q count))
    (n count : Nat) : Lockstep (itemsFrom p n count) (itemsFrom q n count) := by
  induction n generalizing count with
  | zero => exact .pure []
  | succ n ih =>
      unfold Parsing.itemsFrom
      refine (h count).bind fun first => (accept .comma).bind fun more => .ite ?_ (.pure _)
      exact (ih (count + 1)).bind fun others => .pure _

theorem items {p q : Nat → Parser α} (h : ∀ count, Lockstep (p count) (q count)) :
    Lockstep (items p) (items q) :=
  remaining.bind fun n => itemsFrom h (n + 1) 0

theorem disjunction {p q : Parser Expr} (h : Lockstep p q) :
    Lockstep (disjunction p) (disjunction q) :=
  chain _ _ (chain _ _ (chain _ _ (chain _ _ (chain _ _ (chain _ _ h)))))

theorem superMethod (start : Location) : Lockstep (superMethod start) (superMethod start) :=
  (expect _ _).bind fun _ => (expect _ _).bind fun _ => (spanFrom _).bind fun _ => .pure _

theorem grouping {p q : Parser Expr} (h : Lockstep p q) (start : Location) :
    Lockstep (grouping p start) (grouping q start) :=
  h.bind fun _ => (expect _ _).bind fun _ => (spanFrom _).bind fun _ => .pure _

theorem arguments {p q : Parser Expr} (h : Lockstep p q) :
    Lockstep (arguments .strict p) (arguments .recovering q) := by
  have hitems := items fun count => (checkCount "arguments" count).bind fun _ => h
  have hclose (args : List Expr) := (expect .rightParen "')' after arguments").bind fun _ => pure args
  refine (check _).bind fun empty => ?_
  dsimp only
  exact .ite ((pure []).bind hclose) (hitems.bind hclose)

theorem callFrom {p q : Parser Expr} (h : Lockstep p q) (n : Nat) (e : Expr) :
    Lockstep (callFrom .strict p n e) (callFrom .recovering q n e) := by
  induction n generalizing e with
  | zero => exact .pure e
  | succ n ih =>
      unfold Parsing.callFrom
      refine peek?.bind fun kind => ?_
      split
      · refine advance.bind fun _ => (arguments h).bind fun args => ?_
        exact (spanFrom _).bind fun _ => ih _
      · exact advance.bind fun _ => (expect _ _).bind fun _ => ih _
      · exact .pure e

theorem primary {p q : Parser Expr} (h : Lockstep p q) : Lockstep (primary p) (primary q) := by
  refine of_eq fun c => ?_
  cases hrest : c.rest with
  | nil => exact ⟨_, _, primary_of_nil hrest, primary_of_nil hrest, fail _⟩
  | cons t ts =>
      rw [primary_eq hrest, primary_eq hrest]
      rcases behindFirst_rel (t := t) pure (superMethod _) (grouping h _) with
        ⟨hnone, hnone'⟩ | ⟨p', q', hsome, hsome', hbehind⟩
      · rw [hnone, hnone']
        exact ⟨Parsing.fail .noExpression, Parsing.fail .noExpression, rfl, rfl, fail _⟩
      · rw [hsome, hsome']
        exact ⟨Parsing.advance >>= fun _ => p', Parsing.advance >>= fun _ => q', rfl, rfl,
          advance.bind fun _ => hbehind⟩

theorem call {p q : Parser Expr} (h : Lockstep p q) :
    Lockstep (call .strict p) (call .recovering q) :=
  (primary h).bind fun e => remaining.bind fun n => callFrom h n e

theorem assignTo (equals : Token) (target value : Expr) :
    Lockstep (assignTo .strict equals target value) (assignTo .recovering equals target value) := by
  unfold Parsing.assignTo
  split
  · exact .pure _
  · exact .pure _
  · exact (report _).bind fun _ => .pure _

/-- The right side of an assignment is read before its target is found wrong, so an error in it comes
first in both modes. -/
theorem assignmentWith {p q v w : Parser Expr} (h : Lockstep p q) (hv : Lockstep v w) :
    Lockstep (assignmentWith .strict p v) (assignmentWith .recovering q w) := by
  refine (disjunction h).bind fun target => (check _).bind fun equals => .ite ?_ (.pure target)
  exact (expect _ _).bind fun equals => hv.bind fun value => assignTo equals target value

theorem unaryWith {p q e e' : Parser Expr} (h : Lockstep p q) (he : Lockstep e e') :
    Lockstep (unaryWith .strict p e) (unaryWith .recovering q e') := by
  refine here.bind fun start => peek?.bind fun kind => ?_
  cases kind.bind unaryOp? with
  | none => exact call he
  | some op =>
      exact advance.bind fun _ => h.bind fun _ => (spanFrom _).bind fun _ => .pure _

/-- Assignments and unary expressions, at any bound on the recursion. -/
theorem assignment_unary (n : Nat) :
    Lockstep (assignment .strict n) (assignment .recovering n) ∧
      Lockstep (unary .strict n) (unary .recovering n) := by
  induction n with
  | zero => exact ⟨.fail _, .fail _⟩
  | succ n ih =>
      obtain ⟨hassignment, hunary⟩ := ih
      exact ⟨nested (assignmentWith hunary hassignment), nested (unaryWith hunary hassignment)⟩

/-! ## Declarations -/

theorem declarationsFrom {p q : Parser (Option Decl)} (closes : Option Token.Kind → Bool)
    (h : Lockstep p q) (n : Nat) :
    Lockstep (declarationsFrom p closes n) (declarationsFrom q closes n) := by
  induction n with
  | zero => exact .pure []
  | succ n ih =>
      unfold Parsing.declarationsFrom
      refine peek?.bind fun kind => .ite (.pure []) ?_
      exact h.bind fun first => ih.bind fun others => .pure _

theorem body {p q : Parser (Option Decl)} (h : Lockstep p q) : Lockstep (body p) (body q) :=
  remaining.bind fun n => (declarationsFrom _ h n).bind fun _ => (expect _ _).bind fun _ => .pure _

theorem parameter (count : Nat) :
    Lockstep (parameter .strict count) (parameter .recovering count) :=
  (checkCount _ _).bind fun _ => (expect _ _).bind fun _ => .pure _

theorem function {p q : Parser (Option Decl)} (h : Lockstep p q) (kind : String)
    (start : Location) :
    Lockstep (function .strict p kind start) (function .recovering q kind start) := by
  refine (expect _ _).bind fun name => (expect _ _).bind fun _ => (check _).bind fun empty => ?_
  -- what comes behind the parameters, whether there are any or not
  have hrest (params : List Param) := (expect .rightParen "')' after parameters").bind fun _ =>
    (expect .leftBrace ("'\x7b' before " ++ kind ++ " body")).bind fun _ =>
      (body h).bind fun decls => (spanFrom start).bind fun span =>
        pure (FunctionDecl.mk name.lexeme params decls span)
  dsimp only
  exact .ite ((pure []).bind hrest) ((items parameter).bind hrest)

theorem methodsFrom {p q : Location → Parser FunctionDecl} (h : ∀ start, Lockstep (p start) (q start))
    (n : Nat) : Lockstep (methodsFrom p n) (methodsFrom q n) := by
  induction n with
  | zero => exact .pure []
  | succ n ih =>
      unfold Parsing.methodsFrom
      refine peek?.bind fun kind => .ite (.pure []) ?_
      exact here.bind fun start => (h start).bind fun first => ih.bind fun others => .pure _

theorem superclassClause : Lockstep superclassClause superclassClause :=
  (accept _).bind fun _ => .ite ((expect _ _).bind fun _ => .pure _) (.pure _)

theorem classDeclaration {p q : Parser (Option Decl)} (h : Lockstep p q) (start : Location) :
    Lockstep (classDeclaration .strict p start) (classDeclaration .recovering q start) := by
  refine (expect _ _).bind fun name => superclassClause.bind fun superclass => ?_
  refine (expect _ _).bind fun _ => remaining.bind fun n => ?_
  refine (methodsFrom (function h "method") n).bind fun methods => (expect _ _).bind fun _ => ?_
  exact (spanFrom _).bind fun _ => .pure _

theorem varDeclaration {p q : Parser Expr} (h : Lockstep p q) (start : Location) :
    Lockstep (varDeclaration p start) (varDeclaration q start) := by
  refine (expect _ _).bind fun name => (accept _).bind fun present => ?_
  have hrest (initial : Option Expr) := (expect .semicolon "';' after variable declaration").bind
    fun _ => (spanFrom start).bind fun span => pure (Decl.var name.lexeme initial span)
  dsimp only
  exact .ite ((map some h).bind hrest) ((pure none).bind hrest)

/-! ## Statements -/

section Statements

variable {e e' : Parser Expr} {s s' : Parser Stmt} {d d' : Parser (Option Decl)}

theorem expressionStatement (he : Lockstep e e') :
    Lockstep (expressionStatement e) (expressionStatement e') :=
  here.bind fun _ => he.bind fun _ => (expect _ _).bind fun _ => (spanFrom _).bind fun _ => .pure _

theorem printStatement (he : Lockstep e e') (start : Location) :
    Lockstep (printStatement e start) (printStatement e' start) :=
  he.bind fun _ => (expect _ _).bind fun _ => (spanFrom _).bind fun _ => .pure _

theorem blockStatement (hd : Lockstep d d') (start : Location) :
    Lockstep (blockStatement d start) (blockStatement d' start) :=
  (body hd).bind fun _ => (spanFrom _).bind fun _ => .pure _

theorem ifStatement (he : Lockstep e e') (hs : Lockstep s s') (start : Location) :
    Lockstep (ifStatement e s start) (ifStatement e' s' start) := by
  refine (expect _ _).bind fun _ => he.bind fun condition => (expect _ _).bind fun _ => ?_
  refine hs.bind fun thenBranch => (accept _).bind fun present => ?_
  have hrest (elseBranch : Option Stmt) := (spanFrom start).bind fun span =>
    pure (Stmt.ifThenElse condition thenBranch elseBranch span)
  dsimp only
  exact .ite ((map some hs).bind hrest) ((pure none).bind hrest)

theorem whileStatement (he : Lockstep e e') (hs : Lockstep s s') (start : Location) :
    Lockstep (whileStatement e s start) (whileStatement e' s' start) := by
  refine (expect _ _).bind fun _ => he.bind fun condition => (expect _ _).bind fun _ => ?_
  exact hs.bind fun loopBody => (spanFrom _).bind fun _ => .pure _

theorem forInitializer (he : Lockstep e e') :
    Lockstep (forInitializer e) (forInitializer e') := by
  refine here.bind fun start => peek?.bind fun kind => ?_
  split
  · exact advance.bind fun _ => .pure _
  · exact advance.bind fun _ => map some (varDeclaration he start)
  · exact map _ (expressionStatement he)

theorem optionalBefore (kind : Token.Kind) (he : Lockstep e e') :
    Lockstep (optionalBefore kind e) (optionalBefore kind e') :=
  (check kind).bind fun _ => .ite (.pure none) (map some he)

theorem forStatement (he : Lockstep e e') (hs : Lockstep s s') (start : Location) :
    Lockstep (forStatement e s start) (forStatement e' s' start) := by
  refine (expect _ _).bind fun _ => (forInitializer he).bind fun initial => ?_
  refine (optionalBefore .semicolon he).bind fun condition => (expect _ _).bind fun _ => ?_
  refine (optionalBefore .rightParen he).bind fun increment => (expect _ _).bind fun _ => ?_
  exact hs.bind fun loopBody => (spanFrom _).bind fun _ => .pure _

theorem returnStatement (he : Lockstep e e') (start : Location) :
    Lockstep (returnStatement e start) (returnStatement e' start) := by
  refine (optionalBefore .semicolon he).bind fun value => (expect _ _).bind fun _ => ?_
  exact (spanFrom _).bind fun _ => .pure _

theorem breakStatement (start : Location) :
    Lockstep (breakStatement start) (breakStatement start) :=
  (expect _ _).bind fun _ => (spanFrom _).bind fun _ => .pure _

theorem continueStatement (start : Location) :
    Lockstep (continueStatement start) (continueStatement start) :=
  (expect _ _).bind fun _ => (spanFrom _).bind fun _ => .pure _

theorem statementWith (he : Lockstep e e') (hs : Lockstep s s') (hd : Lockstep d d') :
    Lockstep (statementWith e s d) (statementWith e' s' d') := by
  refine here.bind fun start => peek?.bind fun kind => ?_
  split
  · exact advance.bind fun _ => printStatement he start
  · exact advance.bind fun _ => blockStatement hd start
  · exact advance.bind fun _ => ifStatement he hs start
  · exact advance.bind fun _ => whileStatement he hs start
  · exact advance.bind fun _ => forStatement he hs start
  · exact advance.bind fun _ => returnStatement he start
  · exact advance.bind fun _ => breakStatement start
  · exact advance.bind fun _ => continueStatement start
  · exact expressionStatement he

theorem declarationWith (he : Lockstep e e') (hs : Lockstep s s') (hd : Lockstep d d') :
    Lockstep (declarationWith .strict e s d) (declarationWith .recovering e' s' d') := by
  refine here.bind fun start => peek?.bind fun kind => ?_
  split
  · exact advance.bind fun _ => classDeclaration hd start
  · exact advance.bind fun _ => map _ (function hd "function" start)
  · exact advance.bind fun _ => varDeclaration he start
  · exact map _ hs

end Statements

/-- Statements and declarations, at any bound on the recursion. -/
theorem statement_declaration (n : Nat) :
    Lockstep (statement .strict n) (statement .recovering n) ∧
      Lockstep (declaration .strict n) (declaration .recovering n) := by
  induction n with
  | zero => exact ⟨.fail _, .fail _⟩
  | succ n ih =>
      obtain ⟨hstatement, hdeclaration⟩ := ih
      have hexpression := (assignment_unary n).1
      exact ⟨nested (statementWith hexpression hstatement hdeclaration),
        recovered (declarationWith hexpression hstatement hdeclaration)⟩

/-- **Whole programs move in lockstep.** -/
theorem program : Lockstep (program .strict) (program .recovering) := by
  refine here.bind fun start => remaining.bind fun n => ?_
  refine (declarationsFrom _ (statement_declaration _).2 n).bind fun decls => ?_
  exact here.bind fun stop => .pure _

end Lockstep

/-! ## A recovering parse returns -/

/-- A parser that never fails. -/
def Total {α : Type} (p : Parser α) : Prop := ∀ c : Cursor, ∃ a c', p c = .ok a c'

namespace Total

variable {α β : Type}

theorem bind {p : Parser α} {f : α → Parser β} (hp : Total p) (hf : ∀ a, Total (f a)) :
    Total (p >>= f) := by
  intro c
  obtain ⟨a, c', ha⟩ := hp c
  obtain ⟨b, c'', hb⟩ := hf a c'
  refine ⟨b, c'', ?_⟩
  rw [bind_of_ok ha]
  exact hb

theorem pure (a : α) : Total (Pure.pure a : Parser α) := fun c => ⟨a, c, rfl⟩

/-- What fails is recorded, so a recovered parser returns. -/
theorem recovered (p : Parser α) : Total (recovered .recovering p) := by
  intro c
  cases hp : p c with
  | ok a c' => exact ⟨_, _, recovered_of_ok hp⟩
  | error e c' => exact ⟨_, _, recovered_recovering_of_error hp⟩

theorem declarationsFrom {p : Parser (Option Decl)} (closes : Option Token.Kind → Bool)
    (h : Total p) (n : Nat) : Total (declarationsFrom p closes n) := by
  induction n with
  | zero => exact pure []
  | succ n ih =>
      unfold Parsing.declarationsFrom
      refine bind (fun c => ⟨_, _, rfl⟩) fun kind => ?_
      split
      · exact pure []
      · exact h.bind fun first => ih.bind fun others => pure _

/-- The bound on the recursion of a program is not zero, so each of its declarations is recovered. -/
theorem program : Total (program .recovering) := by
  refine bind (fun c => ⟨_, _, rfl⟩) fun start => bind (fun c => ⟨_, _, rfl⟩) fun n => ?_
  refine (declarationsFrom _ (recovered _) n).bind fun decls => ?_
  exact bind (fun c => ⟨_, _, rfl⟩) fun stop => pure _

end Total

/-! ## Source texts -/

/-- A recovering parse with a first error does not succeed. -/
theorem success_eq_false {r : Recovered} {e : SourceError} (h : r.errors.head? = some e) :
    r.success = false := by
  unfold Recovered.success
  cases herrors : r.errors with
  | nil =>
      rw [herrors] at h
      exact nomatch h
  | cons => rfl

/-- What a source text is to both modes: a program without errors, or an error that is the first one
of the recovering parse. -/
theorem parse_recover (source : List Char) :
    (∃ p, Program.parse source = .ok p ∧ Program.recover source = ⟨p, []⟩) ∨
      ∃ e, Program.parse source = .error e ∧ (Program.recover source).errors.head? = some e := by
  obtain ⟨q, c', hq⟩ := Total.program (Cursor.ofScan (scan source))
  have hrecover : Program.recover source =
      ⟨q, (scan source).errors.map .lexical ++ c'.errors.map .syntactic⟩ := by
    simp only [Program.recover, hq]
  rw [hrecover]
  unfold Program.parse scan?
  -- a lexical error ends the strict parse before the parser begins, and comes first in the other
  cases hlexical : (scan source).errors with
  | cons e es => exact .inr ⟨.lexical e, rfl, rfl⟩
  | nil =>
      have hagree := Lockstep.program.agree (Cursor.ofScan (scan source)) rfl
      rw [hq] at hagree
      generalize hstrict : program .strict (Cursor.ofScan (scan source)) = r at hagree
      cases hagree with
      | together hnil =>
          refine .inl ⟨q, by simp only [hstrict], ?_⟩
          rw [hnil]
          rfl
      | @ahead e c b c'' he =>
          refine .inr ⟨.syntactic e, by simp only [hstrict], ?_⟩
          show (c'.errors.map SourceError.syntactic).head? = _
          rw [List.head?_map, he]
          rfl

/-- **Both modes agree on every source text.** The strict parse has a program exactly when the
recovering parse succeeds, and then it is the same program, places included; otherwise its error is
the first one of the recovering parse. -/
theorem strict_iff_recovering (source : List Char) :
    (∀ p, Program.parse source = .ok p ↔
        (Program.recover source).success = true ∧ (Program.recover source).program = p) ∧
      ∀ e, Program.parse source = .error e ↔ (Program.recover source).errors.head? = some e := by
  rcases parse_recover source with ⟨q, hparse, hrecover⟩ | ⟨e, hparse, hhead⟩
  · rw [hparse, hrecover]
    constructor
    · intro p
      exact ⟨fun h => ⟨rfl, Except.ok.inj h⟩, fun h => congrArg _ h.2⟩
    · intro e
      constructor <;> intro h <;> exact nomatch h
  · rw [hparse, hhead, success_eq_false hhead]
    constructor
    · intro p
      constructor
      · intro h
        exact nomatch h
      · intro h
        exact nomatch h.1
    · intro e'
      exact ⟨fun h => congrArg _ (Except.error.inj h), fun h => congrArg _ (Option.some.inj h)⟩

end Lox.Parsing
