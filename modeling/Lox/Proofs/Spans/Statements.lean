import Lox.Proofs.Spans.Expressions

/-!
# Statements and programs on their tokens

A production behind a keyword is given the start of the keyword, and a method the start of its name. So
what such a production makes is laid on its own tokens together with those in front of them, back to
the first one.

## Contents
- `Since`: a run with the tokens in front of it.
- `Lays.function`, `Lays.classDeclaration`, `Lays.varDeclaration`: declarations.
- `Lays.forStatement` and the others: statements.
- `Lays.statement_declaration`: statements and declarations, at any bound on the recursion.
- `program_laid`: programs.
-/

namespace Lox.Spans

open Grammar Parsing Resolving

/-- Together with whatever is in front, back to a token that starts at `start`, the tokens satisfy
`P`. -/
def Since (start : Location) (P : List Token → Prop) (ts : List Token) : Prop :=
  ∀ front first, (front ++ ts).head? = some first → first.span.start = start → P (front ++ ts)

namespace Since

variable {start : Location} {P : List Token → Prop} {ts : List Token}

/-- The token that starts there is the one in front. -/
theorem behind {word : Token} (h : Since word.span.start P ts) : P (word :: ts) :=
  h [word] word rfl rfl

/-- The token that starts there is the first one, if there is any. -/
theorem first (h : Since start P ts) {t : Token} (hhead : ts.head? = some t)
    (hstart : start = t.span.start) : P ts :=
  h [] t hhead hstart.symm

/-- With more in front that is there anyway. -/
theorem append (h : Since start P ts) (us : List Token) :
    Since start P (us ++ ts) := by
  intro front first hfirst hstart
  rw [← List.append_assoc] at hfirst ⊢
  exact h (front ++ us) first hfirst hstart

end Since

namespace Lays

/-- What is chosen by a keyword, and begins with it. -/
theorem word {α : Type} {start : Location} {kind : Token.Kind} {p : Parser α}
    {P : α → List Token → Prop} (h : Lays 0 p fun _ ts a => Since start (P a) ts) :
    LaysAt 0 (some kind) (advance >>= fun _ => p) fun _ ts a =>
      (∀ t, ts.head? = some t → start = t.span.start) → P a ts := by
  refine (LaysAt.advance_bind h).mono ?_
  rintro prev _ a ⟨word, us, rfl, -, hsince⟩ hstart
  obtain rfl := hstart word rfl
  exact hsince.behind

/-! ## Declarations -/

/-- The name of a parameter. -/
theorem parameter (count : Nat) :
    Lays 0 (parameter .strict count) fun _ ts p => Covers ts p.span := by
  refine ((checkCount "parameters" count).bind fun _ =>
    (expect .identifier "parameter name").bind fun name => pure _).mono ?_
  rintro prev _ p ⟨_, _, _, rfl, rfl, name, _, _, rfl, ⟨rfl, -⟩, rfl, rfl⟩
  exact .single name

/-- The superclass is a variable. -/
theorem superclassClause : Lays 0 superclassClause fun _ ts superclass =>
    ∀ use, superclass = some use → ∃ us, us <:+: ts ∧ Stands us (.variable use) := by
  refine (accept_bind ((expect .identifier "superclass name").bind fun name => pure _)
    (pure none)).mono ?_
  rintro prev _ superclass (⟨less, _, rfl, -, name, _, _, rfl, ⟨rfl, hkind⟩, rfl, rfl⟩ |
    ⟨rfl, rfl⟩) use huse
  · obtain rfl := Option.some.inj huse
    refine ⟨[name], ⟨[less], [], rfl⟩, .leaf (.single name) fun i => rfl, ?_⟩
    exact derives_call fun vs => .primary (.variable (.intro hkind))
  · exact nomatch huse

section Declarations

variable {declaration : Parser (Option Decl)}
  (hd : Lays 0 declaration fun _ ts d? => ∃ d, d? = some d ∧ Laid ts (.ofDecl d))

include hd

theorem declarationsFrom (closes : Option Token.Kind → Bool) (n : Nat) :
    Lays 0 (declarationsFrom declaration closes n) fun _ ts ds =>
      Among (fun us d => Laid us (.ofDecl d)) ts ds := by
  induction n with
  | zero =>
      refine (pure []).mono ?_
      rintro prev ts ds ⟨rfl, rfl⟩
      exact .nil _ _
  | succ n ih =>
      unfold Parsing.declarationsFrom
      refine peek_bind fun kind => ?_
      split
      · refine (pure [] _).mono ?_
        rintro prev ts ds ⟨rfl, rfl⟩
        exact .nil _ _
      · refine (hd.bind fun first => ih.bind fun others => pure _).mono ?_ _
        rintro prev _ ds ⟨_, us, _, rfl, ⟨d, rfl, hd⟩, others, vs, _, rfl, hothers, rfl, rfl⟩
        exact .cons hd List.infix_append_left (hothers.mono (by grind))

/-- A body, with its closing brace. -/
theorem body : Lays 0 (body declaration) fun _ ts ds => ∃ us close, ts = us ++ [close] ∧
    Among (fun us d => Laid us (.ofDecl d)) us ds := by
  refine (remaining.bind fun n => (declarationsFrom hd closesBody n).bind fun decls =>
    (expect .rightBrace "'\x7d' after block").bind fun _ => pure decls).mono ?_
  rintro prev _ ds ⟨n, _, _, rfl, rfl, decls, us, _, rfl, hdecls, close, _, _, rfl, ⟨rfl, -⟩,
    rfl, rfl⟩
  exact ⟨us, close, rfl, hdecls⟩

/-- A function from its name on; its parameters are in front of the rest. -/
theorem function (kind : String) (start : Location) :
    Lays 0 (function .strict declaration kind start) fun _ ts f => ts ≠ [] ∧
      Since start (fun ts => Laid ts (.decl (.function f)) ∧ Laid ts (.method f)) ts := by
  have hrest (name : Token) (params : List Param) : Lays 0 (do
      let _ ← Parsing.expect .rightParen "')' after parameters"
      let _ ← Parsing.expect .leftBrace ("'\x7b' before " ++ kind ++ " body")
      let decls ← Parsing.body declaration
      let span ← Parsing.spanFrom start
      Pure.pure (FunctionDecl.mk name.lexeme params decls span)) fun _ ts f =>
        ∀ us, Among (fun us p => Covers us p.span) us params →
          Since start (fun ts => Laid ts (.decl (.function f)) ∧ Laid ts (.method f)) (us ++ ts) := by
    refine ((expect _ _).bind fun _ => (expect _ _).bind fun _ => (body hd).bind fun decls =>
      (spanFrom start).bind fun span => pure _).mono ?_
    rintro prev _ f ⟨_, _, _, rfl, ⟨rfl, -⟩, _, _, _, rfl, ⟨rfl, -⟩, decls, _, _, rfl,
      ⟨vs, close, rfl, hdecls⟩, span, _, _, rfl, ⟨rfl, hspan⟩, rfl, rfl⟩ us hparams front first
      hfirst rfl
    obtain rfl := hspan close (by simp)
    exact Laid.function ⟨first, close, hfirst, by simp [List.getLast?_cons], rfl⟩
      (hparams.mono (by grind)) (hdecls.mono (by grind))
  have hparams : Lays 0 (Parsing.items (Parsing.parameter .strict)) fun _ ts params =>
    Among (fun us p => Covers us p.span) ts params := items parameter
  refine ((expect .identifier (kind ++ " name")).bind fun name =>
    (expect .leftParen ("'(' after " ++ kind ++ " name")).bind fun _ =>
      (check .rightParen).bind fun _ =>
        ite ((pure []).bind (hrest name)) (hparams.bind (hrest name))).mono ?_
  rintro prev _ f ⟨name, _, _, rfl, ⟨rfl, -⟩, opening, _, _, rfl, ⟨rfl, -⟩, _, _, _, rfl, rfl,
    ⟨_, _, ts, rfl, ⟨rfl, rfl⟩, hlaid⟩ | ⟨params, us, ts, rfl, hparams, hlaid⟩⟩
  · exact ⟨List.cons_ne_nil _ _, (hlaid [] (.nil _ _)).append [name, opening]⟩
  · exact ⟨List.cons_ne_nil _ _, (hlaid us hparams).append [name, opening]⟩

theorem methodsFrom (n : Nat) :
    Lays 0 (methodsFrom (Parsing.function .strict declaration "method") n) fun _ ts fs =>
      Among (fun us f => Laid us (.method f)) ts fs := by
  induction n with
  | zero =>
      refine (pure []).mono ?_
      rintro prev ts fs ⟨rfl, rfl⟩
      exact .nil _ _
  | succ n ih =>
      unfold Parsing.methodsFrom
      refine peek_bind fun kind => ?_
      split
      · refine (pure [] _).mono ?_
        rintro prev ts fs ⟨rfl, rfl⟩
        exact .nil _ _
      · have hmore (first : FunctionDecl) := ih.bind fun others => pure (first :: others)
        refine (here_bind fun start => (function hd "method" start).bind hmore).mono ?_ _
        rintro prev _ fs ⟨start, hstart, f, _, _, rfl, ⟨hne, hf⟩, others, vs, _, rfl, hothers, rfl,
          rfl⟩
        obtain ⟨t, us, rfl⟩ := List.exists_cons_of_ne_nil hne
        exact .cons (hf.first rfl (hstart t rfl)).2 List.infix_append_left
          (hothers.mono (by grind))

theorem classDeclaration (start : Location) :
    Lays 0 (classDeclaration .strict declaration start) fun _ ts d =>
      Since start (fun ts => Laid ts (.ofDecl d)) ts := by
  refine ((expect _ _).bind fun name => superclassClause.bind fun superclass =>
    (expect _ _).bind fun _ => remaining.bind fun n => (methodsFrom hd n).bind fun methods =>
      ended _ _ start fun _ span => Decl.class name.lexeme superclass methods span).mono ?_
  rintro prev _ d ⟨name, _, _, rfl, ⟨rfl, -⟩, superclass, us, _, rfl, hsuperclass, opening, _, _,
    rfl, ⟨rfl, -⟩, n, _, _, rfl, rfl, methods, vs, _, rfl, hmethods, close, rfl, rfl⟩ front first
    hfirst rfl
  refine .class ⟨first, close, hfirst, by simp [List.getLast?_cons], rfl⟩ ?_
    (hmethods.mono (by grind))
  intro use huse
  obtain ⟨ms, hms, hstands⟩ := hsuperclass use huse
  exact ⟨ms, hms.trans (by grind), hstands⟩

end Declarations

section Expressions

variable {expression : Parser Expr} (he : Lays 0 expression fun _ ts e => Stands ts e)

include he

theorem varDeclaration (start : Location) :
    Lays 0 (varDeclaration expression start) fun _ ts d =>
      Since start (fun ts => Laid ts (.ofDecl d)) ts := by
  have hrest (name : Token) (initial : Option Expr) : Lays 0 (do
      let _ ← Parsing.expect .semicolon "';' after variable declaration"
      let span ← Parsing.spanFrom start
      Pure.pure (Decl.var name.lexeme initial span)) fun _ ts d =>
        ∀ us, (∀ e, initial = some e → Stands us e) →
          Since start (fun ts => Laid ts (.ofDecl d)) (us ++ ts) := by
    refine (ended _ _ start fun _ span => Decl.var name.lexeme initial span).mono ?_
    rintro prev _ d ⟨close, rfl, rfl⟩ us hinitial front first hfirst rfl
    exact .var ⟨first, close, hfirst, by simp, rfl⟩ fun e he => ⟨us, by grind, hinitial e he⟩
  refine ((expect .identifier "variable name").bind fun name =>
    accept_bind ((map some he).bind (hrest name)) ((pure none).bind (hrest name))).mono ?_
  rintro prev _ d ⟨name, _, _, rfl, ⟨rfl, -⟩, ⟨equal, _, rfl, -, _, us, vs, rfl, ⟨e, rfl, he⟩,
    hlaid⟩ | ⟨_, _, vs, rfl, ⟨rfl, rfl⟩, hlaid⟩⟩
  · have hinitial : ∀ e', some e = some e' → Stands us e' := fun _ heq => Option.some.inj heq ▸ he
    exact (hlaid us hinitial).append [name, equal]
  · exact (hlaid [] nofun).append [name]

/-! ## Statements -/

theorem expressionStatement : Lays 0 (expressionStatement expression) fun _ ts s =>
    Laid ts (.stmt s) := by
  refine (here_bind fun start => he.bind fun value => ended _ _ start fun _ span =>
    Stmt.expression value span).mono ?_
  rintro prev _ s ⟨start, hstart, value, us, _, rfl, hvalue, close, rfl, rfl⟩
  obtain ⟨first, _, hfirst, _⟩ := hvalue.covers
  obtain rfl := hstart first (by simp [hfirst])
  refine .stmt_expr ⟨first, close, by simp [hfirst], by simp, rfl⟩ hvalue List.infix_append_left ?_
  rintro (_ | i) inner c ⟨⟩
  rfl

theorem printStatement (start : Location) :
    Lays 0 (printStatement expression start) fun _ ts s =>
      Since start (fun ts => Laid ts (.stmt s)) ts := by
  refine (he.bind fun value => ended _ _ start fun _ span => Stmt.print value span).mono ?_
  rintro prev _ s ⟨value, us, _, rfl, hvalue, close, rfl, rfl⟩ front first hfirst rfl
  refine .stmt_expr ⟨first, close, hfirst, by simp, rfl⟩ hvalue (by grind) ?_
  rintro (_ | i) inner c ⟨⟩
  rfl

theorem optionalBefore (kind : Token.Kind) : Lays 0 (optionalBefore kind expression)
    fun _ ts value => ∀ e, value = some e → Stands ts e := by
  refine ((check kind).bind fun absent => ite (pure none) (map some he)).mono ?_
  rintro prev _ value ⟨_, _, ts, rfl, rfl, ⟨rfl, rfl⟩ | ⟨e, rfl, he⟩⟩ e' heq
  · exact nomatch heq
  · exact Option.some.inj heq ▸ he

theorem returnStatement (start : Location) :
    Lays 0 (returnStatement expression start) fun _ ts s =>
      Since start (fun ts => Laid ts (.stmt s)) ts := by
  refine ((optionalBefore he .semicolon).bind fun value => ended _ _ start fun _ span =>
    Stmt.return value span).mono ?_
  rintro prev _ s ⟨value, us, _, rfl, hvalue, close, rfl, rfl⟩ front first hfirst rfl
  exact .return ⟨first, close, hfirst, by simp, rfl⟩ fun e he => ⟨us, by grind, hvalue e he⟩

/-- The first clause of a `for`. -/
theorem forInitializer : Lays 0 (forInitializer expression) fun _ ts initial =>
    ∀ d, initial = some d → Laid ts (.ofDecl d) := by
  refine here_peek_bind fun start kind => ?_
  split
  · refine (LaysAt.advance_bind (pure none)).mono ?_
    rintro prev _ initial ⟨_, _, rfl, -, rfl, rfl⟩ _ d hd
    exact nomatch hd
  · refine word ((map some (varDeclaration he start)).mono ?_)
    rintro prev ts initial ⟨d, rfl, hlaid⟩ front first hfirst hstart d' heq
    exact Option.some.inj heq ▸ hlaid front first hfirst hstart
  · refine (map _ (expressionStatement he) _).mono ?_
    rintro prev ts initial ⟨s, rfl, hs⟩ _ d heq
    exact Option.some.inj heq ▸ hs

end Expressions

theorem breakStatement (start : Location) : Lays 0 (breakStatement start) fun _ ts s =>
    Since start (fun ts => Laid ts (.stmt s)) ts := by
  refine (ended _ _ start fun _ span => Stmt.break span).mono ?_
  rintro prev _ s ⟨close, rfl, rfl⟩ front first hfirst rfl
  exact .stmt_leaf ⟨first, close, hfirst, by simp, rfl⟩ fun i => rfl

theorem continueStatement (start : Location) : Lays 0 (continueStatement start) fun _ ts s =>
    Since start (fun ts => Laid ts (.stmt s)) ts := by
  refine (ended _ _ start fun _ span => Stmt.continue span).mono ?_
  rintro prev _ s ⟨close, rfl, rfl⟩ front first hfirst rfl
  exact .stmt_leaf ⟨first, close, hfirst, by simp, rfl⟩ fun i => rfl

section Statements

variable {expression : Parser Expr} {statement : Parser Stmt} {declaration : Parser (Option Decl)}
  (he : Lays 0 expression fun _ ts e => Stands ts e)
  (hs : Lays 0 statement fun _ ts s => Laid ts (.stmt s))
  (hd : Lays 0 declaration fun _ ts d? => ∃ d, d? = some d ∧ Laid ts (.ofDecl d))

include hd in
theorem blockStatement (start : Location) : Lays 0 (blockStatement declaration start) fun _ ts s =>
    Since start (fun ts => Laid ts (.stmt s)) ts := by
  refine ((body hd).bind fun decls => (spanFrom start).bind fun _ => pure _).mono ?_
  rintro prev _ s ⟨decls, _, _, rfl, ⟨us, close, rfl, hdecls⟩, span, _, _, rfl, ⟨rfl, hspan⟩, rfl,
    rfl⟩ front first hfirst rfl
  obtain rfl := hspan close (by simp)
  exact .block ⟨first, close, hfirst, by simp [List.getLast?_cons], rfl⟩ (hdecls.mono (by grind))

include he hs

/-- The last token is that of the branch that is read last. -/
theorem ifStatement (start : Location) :
    Lays 0 (ifStatement expression statement start) fun _ ts s =>
      Since start (fun ts => Laid ts (.stmt s)) ts := by
  have hrest (condition : Expr) (thenBranch : Stmt) (elseBranch : Option Stmt) :=
    (@spanFrom 0 start).bind fun span =>
      pure (Stmt.ifThenElse condition thenBranch elseBranch span)
  refine ((expect _ _).bind fun _ => he.bind fun condition => (expect _ _).bind fun _ =>
    hs.bind fun thenBranch => accept_bind ((map some hs).bind (hrest condition thenBranch))
      ((pure none).bind (hrest condition thenBranch))).mono ?_
  rintro prev _ s ⟨opening, _, _, rfl, ⟨rfl, -⟩, condition, us, _, rfl, hcondition, closing, _, _,
    rfl, ⟨rfl, -⟩, thenBranch, vs, _, rfl, hthen, helse⟩ front first hfirst rfl
  rcases helse with ⟨word, _, rfl, -, _, ms, _, rfl, ⟨elseBranch, rfl, helse⟩, span, _, _, rfl,
    ⟨rfl, hspan⟩, rfl, rfl⟩ | ⟨_, _, _, rfl, ⟨rfl, rfl⟩, span, _, _, rfl, ⟨rfl, hspan⟩, rfl, rfl⟩
  · obtain ⟨_, last, _, hlast, _⟩ := helse.covers
    obtain rfl := hspan last (by simp [hlast])
    refine .ifThenElse ⟨first, last, hfirst, by simp [List.getLast?_cons, hlast], rfl⟩ hcondition
      (by grind) hthen (by grind) fun s heq => ?_
    obtain rfl := Option.some.inj heq
    exact ⟨ms, ⟨front ++ opening :: (us ++ closing :: (vs ++ [word])), [], by simp⟩, helse⟩
  · obtain ⟨_, last, _, hlast, _⟩ := hthen.covers
    obtain rfl := hspan last (by simp [hlast])
    exact .ifThenElse ⟨first, last, hfirst, by simp [List.getLast?_cons, hlast], rfl⟩ hcondition
      (by grind) hthen (by grind) nofun

theorem whileStatement (start : Location) :
    Lays 0 (whileStatement expression statement start) fun _ ts s =>
      Since start (fun ts => Laid ts (.stmt s)) ts := by
  refine ((expect _ _).bind fun _ => he.bind fun condition => (expect _ _).bind fun _ =>
    hs.bind fun loopBody => (spanFrom start).bind fun _ => pure _).mono ?_
  rintro prev _ s ⟨opening, _, _, rfl, ⟨rfl, -⟩, condition, us, _, rfl, hcondition, closing, _, _,
    rfl, ⟨rfl, -⟩, loopBody, vs, _, rfl, hbody, span, _, _, rfl, ⟨rfl, hspan⟩, rfl, rfl⟩ front first
    hfirst rfl
  obtain ⟨_, last, _, hlast, _⟩ := hbody.covers
  obtain rfl := hspan last (by simp [hlast])
  exact .whileLoop ⟨first, last, hfirst, by simp [List.getLast?_cons, hlast], rfl⟩
    (.inl ⟨us, by grind, hcondition⟩) hbody (by grind) nofun

/-- The block and the loop in it are both laid on the whole statement. -/
theorem forStatement (start : Location) :
    Lays 0 (forStatement expression statement start) fun _ ts s =>
      Since start (fun ts => Laid ts (.stmt s)) ts := by
  refine ((expect _ _).bind fun _ => (forInitializer he).bind fun initial =>
    (optionalBefore he .semicolon).bind fun condition => (expect _ _).bind fun _ =>
      (optionalBefore he .rightParen).bind fun increment => (expect _ _).bind fun _ =>
        hs.bind fun loopBody => (spanFrom start).bind fun _ => pure _).mono ?_
  rintro prev _ s ⟨opening, _, _, rfl, ⟨rfl, -⟩, initial, us₁, _, rfl, hinitial, condition, us₂, _,
    rfl, hcondition, semicolon, _, _, rfl, ⟨rfl, -⟩, increment, us₃, _, rfl, hincrement, closing, _,
    _, rfl, ⟨rfl, -⟩, loopBody, us₄, _, rfl, hbody, span, _, _, rfl, ⟨rfl, hspan⟩, rfl, rfl⟩ front
    first hfirst rfl
  obtain ⟨_, last, _, hlast, _⟩ := hbody.covers
  obtain rfl := hspan last (by simp [hlast])
  -- the block, the loop and a missing condition are all laid on the whole run
  generalize hts : front ++ _ = ts at hfirst ⊢
  have hcovers : Covers ts ⟨first.span.start, last.span.stop⟩ :=
    ⟨first, last, hfirst, by simp [← hts, List.getLast?_cons, hlast], rfl⟩
  have hloop : Laid ts (.stmt (.whileLoop
      (condition.getD (.literal (.bool true) ⟨first.span.start, last.span.stop⟩)) loopBody increment
      ⟨first.span.start, last.span.stop⟩)) := by
    refine .whileLoop hcovers ?_ hbody (by grind) fun e he => ⟨us₃, by grind, hincrement e he⟩
    cases condition with
    | none => exact .inr rfl
    | some e => exact .inl ⟨us₂, by grind, hcondition e rfl⟩
  refine .block hcovers fun d hd => ?_
  rcases List.mem_append.1 hd with hmem | hmem
  · exact ⟨us₁, by grind, hinitial d (Option.mem_toList.1 hmem)⟩
  · rw [List.mem_singleton.1 hmem]
    exact ⟨ts, List.infix_refl ts, hloop⟩

include hd

theorem statementWith : Lays 0 (statementWith expression statement declaration) fun _ ts s =>
    Laid ts (.stmt s) := by
  refine here_peek_bind fun start kind => ?_
  split
  · exact word (printStatement he start)
  · exact word (blockStatement hd start)
  · exact word (ifStatement he hs start)
  · exact word (whileStatement he hs start)
  · exact word (forStatement he hs start)
  · exact word (returnStatement he start)
  · exact word (breakStatement start)
  · exact word (continueStatement start)
  · exact (expressionStatement he _).mono fun _ _ _ hlaid _ => hlaid

theorem declarationWith : Lays 0 (declarationWith .strict expression statement declaration)
    fun _ ts d => Laid ts (.ofDecl d) := by
  refine here_peek_bind fun start kind => ?_
  split
  · exact word (classDeclaration hd start)
  · refine word ((map Decl.function (function hd "function" start)).mono ?_)
    rintro prev ts d ⟨f, rfl, -, hlaid⟩ front first hfirst hstart
    exact (hlaid front first hfirst hstart).1
  · exact word (varDeclaration he start)
  · refine (map Decl.stmt hs _).mono ?_
    rintro prev ts d ⟨s, rfl, hlaid⟩ _
    exact hlaid

end Statements

/-- Statements and declarations, at any bound on the recursion. -/
theorem statement_declaration (n : Nat) :
    Lays 0 (statement .strict n) (fun _ ts s => Laid ts (.stmt s)) ∧
      Lays 0 (declaration .strict n) (fun _ ts d? => ∃ d, d? = some d ∧ Laid ts (.ofDecl d)) := by
  induction n with
  | zero => exact ⟨fail _ _, fail _ _⟩
  | succ n ih =>
      obtain ⟨hstatement, hdeclaration⟩ := ih
      have hexpression := (assignment_unary n).1
      constructor
      · exact nested ((statementWith hexpression hstatement hdeclaration).deeper (Nat.zero_le 1))
      · exact recovered (declarationWith hexpression hstatement hdeclaration)

end Lays

/-- **A program on its tokens.** Its declarations are laid on them, and it ends where the source
does. -/
theorem program_laid {s : Scan} {p : Program} {c : Cursor}
    (h : program .strict (Cursor.ofScan s) = .ok p c) :
    p.span = ⟨(Cursor.ofScan s).here, s.finish⟩ ∧
      Among (fun us d => Laid us (.ofDecl d)) s.tokens p.body := by
  obtain ⟨start, _, hstart, h⟩ := ok_of_bind h
  cases hstart
  obtain ⟨n, _, hn, h⟩ := ok_of_bind h
  cases hn
  obtain ⟨decls, c', hdecls, h⟩ := ok_of_bind h
  cases h
  obtain ⟨ts, hts, hamong⟩ := Lays.declarationsFrom (Lays.statement_declaration _).2 (·.isNone) _ _
    _ _ _ (Nat.zero_le _) rfl hdecls
  -- the declarations go on as long as there is a token
  obtain ⟨_, _, hend⟩ := Reads.declarationsFrom (Reads.statement_declaration _).2 (·.isNone) rfl _ _
    _ _ hdecls
  have hnone : c.rest = [] := by
    cases hrest : c.rest with
    | nil => rfl
    | cons t rest =>
        rw [hrest] at hend
        exact absurd (hend (Nat.le_refl _)) Bool.false_ne_true
  have htokens : s.tokens = ts := by
    have hrest := hts.rest
    rwa [hnone, List.append_nil] at hrest
  constructor
  · show Span.mk _ c.here = _
    unfold Cursor.here
    rw [hnone, hts.finish]
    rfl
  · rw [htokens]
    exact hamong

end Lox.Spans
