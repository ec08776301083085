import Lox.Proofs.Recovery.Steps

/-!
# Enough room for the recursion

The recursion of the parser is bounded by a number, and between two tokens a declaration, a statement,
an assignment and a unary expression can open. So four levels for each token to come, and four more,
are always enough: with any two bounds that are as great, every production does the same.

Two measures go down together here. The bound on the recursion is used up by a production that calls
another one in front of the same token, and the order of the four recursive productions shows that
this happens at most four times. The number of tokens to come goes down otherwise.

## Contents
- `RepeatsBelow.primary`, `RepeatsBelow.call` and the others: expressions.
- `RepeatsInside.declarationsFrom`, `RepeatsBelow.methodsFrom`: the loops of bodies.
- `RepeatsBelow.function`, `RepeatsWithin.forStatement` and the others: declarations and statements.
- `Roomy`, `roomy`: the recursive productions at all bounds that are great enough.
-/

namespace Lox.Parsing

/-! ## Expressions -/

section Expressions

variable {r : Nat} {mode : Mode} {e e' operand operand' : Parser Expr}

theorem RepeatsBelow.disjunction (h : RepeatsBelow (r + 1) e e') :
    RepeatsBelow (r + 1) (disjunction e) (disjunction e') :=
  h.chain.chain.chain.chain.chain.chain

theorem RepeatsWithin.superMethod (start : Location) :
    RepeatsWithin true r (superMethod start) (superMethod start) :=
  (expect _ _).bind fun _ => (expect _ _).bind fun _ => (spanFrom start).bind fun _ => .pure _

theorem RepeatsWithin.grouping (h : RepeatsWithin true r e e') (start : Location) :
    RepeatsWithin true r (grouping e start) (grouping e' start) :=
  h.bind fun _ => (expect _ _).bind fun _ => (spanFrom start).bind fun _ => .pure _

theorem RepeatsBelow.primary (h : RepeatsBelow r e e') :
    RepeatsBelow (r + 1) (primary e) (primary e') := by
  intro c hc
  cases hrest : c.rest with
  | nil =>
      have hrun (p : Parser Expr) (d : Cursor) (hd : Beside c d) :
          Parsing.primary p d = Parsing.fail .noExpression d :=
        primary_of_nil (hd.rest.trans hrest)
      exact (Repeats.fail _).congr (hrun e c (.refl c)) (hrun e')
  | cons t ts =>
      have hrest' (d : Cursor) (hd : Beside c d) : d.rest = t :: ts := hd.rest.trans hrest
      rcases behindFirst_rel (R := RepeatsWithin false r) (t := t) .pure
          (RepeatsWithin.superMethod _).weaken (h.within.grouping _).weaken with
        ⟨hnone, hnone'⟩ | ⟨p, q, hsome, hsome', hpq⟩
      · refine (Repeats.fail .noExpression).congr ?_ fun d hd => ?_
        · rw [primary_eq hrest, hnone]
        · rw [primary_eq (hrest' d hd), hnone']
      · refine (Repeats.word (Cursor.kind?_of_cons hrest) hc hpq).congr ?_ fun d hd => ?_
        · rw [primary_eq hrest, hsome]
          rfl
        · rw [primary_eq (hrest' d hd), hsome']
          rfl

theorem RepeatsWithin.arguments (h : RepeatsWithin true r e e') :
    RepeatsWithin true r (arguments mode e) (arguments mode e') := by
  have hrest (args : List Expr) := (expect (r := r) .rightParen "')' after arguments").bind
    fun _ => pure args
  have hitem (count : Nat) := (checkCount (r := r) mode "arguments" count).bind fun _ => h
  exact (check .rightParen).bind fun _ => .ite ((pure []).bind hrest) ((items hitem).bind hrest)

theorem RepeatsWithin.callFrom (h : RepeatsWithin true r e e') (n : Nat) (callee : Expr) :
    RepeatsWithin false r (callFrom mode e n callee) (callFrom mode e' n callee) := by
  induction n generalizing callee with
  | zero => exact .pure callee
  | succ n ih =>
      unfold Parsing.callFrom
      refine peek?.bind fun kind => ?_
      split
      · exact advance.bind fun _ => h.arguments.andThen fun args =>
          (spanFrom _).bind fun span => ih _
      · exact advance.bind fun _ => (expect _ _).andThen fun name => ih _
      · exact .pure callee

theorem RepeatsBelow.call (h : RepeatsBelow r e e') :
    RepeatsBelow (r + 1) (call mode e) (call mode e') :=
  h.primary.bind fun callee => RepeatsWithin.remaining.bind fun n => h.within.callFrom n callee

theorem RepeatsWithin.assignTo (equals : Token) (target value : Expr) :
    RepeatsWithin false r (assignTo mode equals target value)
      (assignTo mode equals target value) := by
  unfold Parsing.assignTo
  split
  · exact .pure _
  · exact .pure _
  · exact (report mode _).bind fun _ => .pure _

theorem RepeatsBelow.assignmentWith (h : RepeatsBelow (r + 1) operand operand')
    (he : RepeatsBelow r e e') :
    RepeatsBelow (r + 1) (assignmentWith mode operand e) (assignmentWith mode operand' e') := by
  refine h.disjunction.bind fun target => (RepeatsWithin.check _).bind fun equals => .ite ?_ (.pure target)
  exact (RepeatsWithin.expect _ _).andThen fun equals => he.within.bind fun value =>
    .assignTo equals target value

theorem RepeatsBelow.unaryWith (h : RepeatsBelow r operand operand') (he : RepeatsBelow r e e') :
    RepeatsBelow (r + 1) (unaryWith mode operand e) (unaryWith mode operand' e') := by
  refine .here_bind fun start c hc => .peek_bind fun kind? hkind => ?_
  cases hop : kind?.bind unaryOp? with
  | none => exact he.call c hc
  | some op =>
      obtain ⟨kind, rfl, -⟩ := Option.bind_eq_some_iff.1 hop
      exact .word hkind hc (h.within.bind fun _ => (RepeatsWithin.spanFrom _).bind fun _ => .pure _)

end Expressions

/-! ## Loops -/

/-- A loop over declarations ends where something closes it, whatever its bound. -/
theorem declarationsFrom_of_closes {d : Parser (Option Decl)} {closes : Option Token.Kind → Bool}
    {c : Cursor} (h : closes c.kind? = true) (n : Nat) :
    declarationsFrom d closes n c = .ok [] c := by
  cases n with
  | zero => rfl
  | succ n =>
      show (if closes c.kind? = true then (pure [] : Parser (List Decl)) else _) c = _
      rw [if_pos h]
      rfl

theorem declarationsFrom_of_not_closes {d : Parser (Option Decl)}
    {closes : Option Token.Kind → Bool} {c : Cursor} (h : closes c.kind? = false) (n : Nat) :
    declarationsFrom d closes (n + 1) c =
      (d >>= fun first => declarationsFrom d closes n >>= fun others =>
        pure (first.toList ++ others)) c := by
  show (if closes c.kind? = true then (pure [] : Parser (List Decl)) else _) c = _
  rw [if_neg (Bool.eq_false_iff.1 h)]

theorem methodsFrom_of_closes {m : Location → Parser FunctionDecl} {c : Cursor}
    (h : closesBody c.kind? = true) (n : Nat) : methodsFrom m n c = .ok [] c := by
  cases n with
  | zero => rfl
  | succ n =>
      show (if closesBody c.kind? = true then (pure [] : Parser (List FunctionDecl)) else _) c = _
      rw [if_pos h]
      rfl

theorem methodsFrom_of_not_closes {m : Location → Parser FunctionDecl} {c : Cursor}
    (h : closesBody c.kind? = false) (n : Nat) :
    methodsFrom m (n + 1) c =
      (m c.here >>= fun first => methodsFrom m n >>= fun others => pure (first :: others)) c := by
  show (if closesBody c.kind? = true then (pure [] : Parser (List FunctionDecl)) else _) c = _
  rw [if_neg (Bool.eq_false_iff.1 h)]
  rfl

/-- Where a loop goes on there is a token. -/
theorem rest_ne_nil_of_not_closes {closes : Option Token.Kind → Bool} {c : Cursor}
    (hnone : closes none = true) (h : closes c.kind? = false) : c.rest ≠ [] := by
  intro hnil
  rw [Cursor.kind?_of_nil hnil] at h
  exact Bool.eq_false_iff.1 h hnone

/-- A bound that counts the tokens to come is not used up while there are any. -/
theorem exists_succ_of_rest {c : Cursor} {n : Nat} (hne : c.rest ≠ []) (hn : c.rest.length ≤ n) :
    ∃ m, n = m + 1 :=
  Nat.exists_eq_succ_of_ne_zero
    (Nat.ne_of_gt (Nat.lt_of_lt_of_le (List.length_pos_iff.2 hne) hn))

section Loops

variable {r : Nat} {d d' : Parser (Option Decl)} {m m' : Location → Parser FunctionDecl}

/-- **A loop over declarations.** Each one passes a token, so the bounds matter only as far as there
are tokens to come. -/
theorem RepeatsInside.declarationsFrom {closes : Option Token.Kind → Bool}
    (hnone : closes none = true) (h : RepeatsInside r d d') (n n' : Nat) (c : Cursor)
    (hc : c.rest.length < r) (hbound : min n c.rest.length = min n' c.rest.length) :
    Repeats false (declarationsFrom d closes n) (declarationsFrom d' closes n') c := by
  cases hcloses : closes c.kind? with
  | true =>
      refine (Repeats.pure []).congr (declarationsFrom_of_closes hcloses n) fun c₁ hc₁ => ?_
      exact declarationsFrom_of_closes (by rw [hc₁.kind?_eq, hcloses]) n'
  | false =>
      have hne := rest_ne_nil_of_not_closes hnone hcloses
      have hpos := List.length_pos_iff.2 hne
      by_cases hzero : n = 0
      · obtain rfl : n' = 0 := by omega
        subst hzero
        exact .pure []
      · obtain ⟨k, rfl⟩ := Nat.exists_eq_succ_of_ne_zero hzero
        obtain ⟨k', rfl⟩ : ∃ k', n' = k' + 1 := ⟨n' - 1, by omega⟩
        have hrepeats : Repeats true
            (d >>= fun first => Parsing.declarationsFrom d closes k >>= fun others =>
              Pure.pure (first.toList ++ others))
            (d' >>= fun first => Parsing.declarationsFrom d' closes k' >>= fun others =>
              Pure.pure (first.toList ++ others)) c := by
          have hothers (c₁ : Cursor) (h₁ : Advanced true c c₁) := by
            have hlt := h₁.lt
            exact declarationsFrom hnone h k k' c₁ (by omega) (by omega)
          exact (h c hne hc).bind fun first c₁ _ h₁ =>
            (hothers c₁ h₁).bind fun others _ _ _ => .pure _
        refine hrepeats.weaken.congr (declarationsFrom_of_not_closes hcloses k) fun c₁ hc₁ => ?_
        exact declarationsFrom_of_not_closes (by rw [hc₁.kind?_eq, hcloses]) k'
termination_by n

/-- A loop over declarations ends because something closes it, and not because of its bound. -/
theorem RepeatsInside.closes_of_declarationsFrom {closes : Option Token.Kind → Bool}
    (hnone : closes none = true) (h : RepeatsInside r d d') (n : Nat) (c c' : Cursor)
    (ds : List Decl) (hc : c.rest.length < r) (hn : c.rest.length ≤ n)
    (hrun : Parsing.declarationsFrom d closes n c = .ok ds c') : closes c'.kind? = true := by
  cases hcloses : closes c.kind? with
  | true =>
      rw [declarationsFrom_of_closes hcloses] at hrun
      cases hrun
      exact hcloses
  | false =>
      have hne := rest_ne_nil_of_not_closes hnone hcloses
      obtain ⟨k, rfl⟩ := exists_succ_of_rest hne hn
      rw [declarationsFrom_of_not_closes hcloses] at hrun
      obtain ⟨first, c₁, hfirst, hrun⟩ := ok_of_bind hrun
      obtain ⟨others, c₂, hothers, hrun⟩ := ok_of_bind hrun
      cases hrun
      have hlt := ((h c hne hc).ok first c₁ hfirst).1.lt
      exact closes_of_declarationsFrom hnone h k c₁ c' others (by omega) (by omega) hothers
termination_by n

/-- **A loop over methods.** -/
theorem RepeatsBelow.methodsFrom (h : ∀ start, RepeatsBelow r (m start) (m' start)) (n n' : Nat)
    (c : Cursor) (hc : c.rest.length < r)
    (hbound : min n c.rest.length = min n' c.rest.length) :
    Repeats false (methodsFrom m n) (methodsFrom m' n') c := by
  cases hcloses : closesBody c.kind? with
  | true =>
      refine (Repeats.pure []).congr (methodsFrom_of_closes hcloses n) fun c₁ hc₁ => ?_
      exact methodsFrom_of_closes (by rw [hc₁.kind?_eq, hcloses]) n'
  | false =>
      have hpos := List.length_pos_iff.2 (rest_ne_nil_of_not_closes rfl hcloses)
      by_cases hzero : n = 0
      · obtain rfl : n' = 0 := by omega
        subst hzero
        exact .pure []
      · obtain ⟨k, rfl⟩ := Nat.exists_eq_succ_of_ne_zero hzero
        obtain ⟨k', rfl⟩ : ∃ k', n' = k' + 1 := ⟨n' - 1, by omega⟩
        have hrepeats : Repeats true
            (m c.here >>= fun first => Parsing.methodsFrom m k >>= fun others =>
              Pure.pure (first :: others))
            (m' c.here >>= fun first => Parsing.methodsFrom m' k' >>= fun others =>
              Pure.pure (first :: others)) c := by
          have hothers (c₁ : Cursor) (h₁ : Advanced true c c₁) := by
            have hlt := h₁.lt
            exact methodsFrom h k k' c₁ (by omega) (by omega)
          exact (h c.here c hc).bind fun first c₁ _ h₁ =>
            (hothers c₁ h₁).bind fun others _ _ _ => .pure _
        refine hrepeats.weaken.congr (methodsFrom_of_not_closes hcloses k) fun c₁ hc₁ => ?_
        rw [methodsFrom_of_not_closes (by rw [hc₁.kind?_eq, hcloses]), hc₁.here_eq]
termination_by n

/-- A loop over methods ends because something closes it, and not because of its bound. -/
theorem RepeatsBelow.closes_of_methodsFrom (h : ∀ start, RepeatsBelow r (m start) (m' start))
    (n : Nat) (c c' : Cursor) (fs : List FunctionDecl) (hc : c.rest.length < r)
    (hn : c.rest.length ≤ n) (hrun : Parsing.methodsFrom m n c = .ok fs c') :
    closesBody c'.kind? = true := by
  cases hcloses : closesBody c.kind? with
  | true =>
      rw [methodsFrom_of_closes hcloses] at hrun
      cases hrun
      exact hcloses
  | false =>
      have hne := rest_ne_nil_of_not_closes rfl hcloses
      obtain ⟨k, rfl⟩ := exists_succ_of_rest hne hn
      rw [methodsFrom_of_not_closes hcloses] at hrun
      obtain ⟨first, c₁, hfirst, hrun⟩ := ok_of_bind hrun
      obtain ⟨others, c₂, hothers, hrun⟩ := ok_of_bind hrun
      cases hrun
      have hlt := ((h c.here c hc).ok first c₁ hfirst).1.lt
      exact closes_of_methodsFrom h k c₁ c' others (by omega) (by omega) hothers
termination_by n

/-- The declarations of a body begin behind a token. -/
theorem RepeatsWithin.body (h : RepeatsInside r d d') : RepeatsWithin true r (body d) (body d') := by
  intro c hc
  refine .remaining_bind ?_
  have hdecls : Repeats false (Parsing.declarationsFrom d closesBody c.rest.length)
      (Parsing.declarationsFrom d' closesBody c.rest.length) c :=
    h.declarationsFrom rfl _ _ c hc.lt rfl
  exact hdecls.bind fun decls c₁ _ _ => (Repeats.expect _ _).bind fun _ _ _ _ => .pure _

end Loops

/-! ## Declarations -/

section Declarations

variable {r : Nat} {mode : Mode} {e e' : Parser Expr} {s s' : Parser Stmt}
  {d d' : Parser (Option Decl)}

namespace RepeatsWithin

theorem parameter (count : Nat) :
    RepeatsWithin true r (parameter mode count) (parameter mode count) :=
  (checkCount mode _ _).bind fun _ => (expect _ _).bind fun _ => .pure _

end RepeatsWithin

/-- A function begins with its name, and passes it. -/
theorem RepeatsBelow.function (h : RepeatsInside r d d') (kind : String) (start : Location) :
    RepeatsBelow r (function mode d kind start) (function mode d' kind start) := by
  intro c hc
  -- what comes behind the parameters, whether there are any or not
  have hbody (name : Token) (params : List Param) :=
    (RepeatsWithin.expect (r := r) .rightParen "')' after parameters").bind fun _ =>
      (RepeatsWithin.expect .leftBrace ("'\x7b' before " ++ kind ++ " body")).bind fun _ =>
        (RepeatsWithin.body h).bind fun decls => (RepeatsWithin.spanFrom start).bind fun span =>
          .pure (FunctionDecl.mk name.lexeme params decls span)
  have hparam : ∀ count, RepeatsWithin true r (parameter mode count) (parameter mode count) :=
    RepeatsWithin.parameter
  exact (Repeats.expect _ _).behind hc fun name => (RepeatsWithin.expect _ _).bind fun _ =>
    (RepeatsWithin.check _).bind fun _ =>
      .ite ((RepeatsWithin.pure []).bind (hbody name))
        ((RepeatsWithin.items hparam).bind (hbody name))

namespace RepeatsWithin

theorem superclassClause : RepeatsWithin false r superclassClause superclassClause :=
  (accept _).bind fun _ => .ite ((expect _ _).andThen fun _ => .pure _) (.pure _)

theorem classDeclaration (h : RepeatsInside r d d') (start : Location) :
    RepeatsWithin true r (classDeclaration mode d start) (classDeclaration mode d' start) := by
  have hbehind (name : Token) (superclass : Option NameUse) (methods : List FunctionDecl) :=
    (expect (r := r) .rightBrace "'\x7d' after class body").bind fun _ =>
      (spanFrom start).bind fun span => pure (Decl.class name.lexeme superclass methods span)
  have hmethod : ∀ start, RepeatsBelow r (function mode d "method" start)
      (function mode d' "method" start) := RepeatsBelow.function h "method"
  have hmethods (c : Cursor) (hc : Within r c) :=
    RepeatsBelow.methodsFrom hmethod c.rest.length c.rest.length c hc.lt rfl
  exact (expect _ _).bind fun name => superclassClause.bind fun superclass =>
    (expect _ _).bind fun _ c hc => .remaining_bind <|
      (hmethods c hc).bind fun methods c₁ _ h₁ => hbehind name superclass methods c₁ (hc.next h₁)

theorem varDeclaration (he : RepeatsWithin true r e e') (start : Location) :
    RepeatsWithin true r (varDeclaration e start) (varDeclaration e' start) := by
  have hrest (name : Token) (initial : Option Expr) :=
    (expect (r := r) .semicolon "';' after variable declaration").bind fun _ =>
      (spanFrom start).bind fun span => pure (Decl.var name.lexeme initial span)
  exact (expect _ _).bind fun name => (accept _).bind fun _ =>
    .ite ((he.map some).weaken.bind (hrest name)) ((pure none).bind (hrest name))

/-! ## Statements -/

theorem printStatement (he : RepeatsWithin true r e e') (start : Location) :
    RepeatsWithin true r (printStatement e start) (printStatement e' start) :=
  he.bind fun _ => (expect _ _).bind fun _ => (spanFrom _).bind fun _ => .pure _

theorem blockStatement (hd : RepeatsInside r d d') (start : Location) :
    RepeatsWithin true r (blockStatement d start) (blockStatement d' start) :=
  (body hd).bind fun _ => (spanFrom _).bind fun _ => .pure _

theorem ifStatement (he : RepeatsWithin true r e e') (hs : RepeatsWithin true r s s')
    (start : Location) : RepeatsWithin true r (ifStatement e s start) (ifStatement e' s' start) := by
  have hrest (condition : Expr) (thenBranch : Stmt) (elseBranch : Option Stmt) :=
    (spanFrom (r := r) start).bind fun span =>
      pure (Stmt.ifThenElse condition thenBranch elseBranch span)
  exact (expect _ _).bind fun _ => he.bind fun condition => (expect _ _).bind fun _ =>
    hs.bind fun thenBranch => (accept _).bind fun _ =>
      .ite ((hs.map some).weaken.bind (hrest condition thenBranch))
        ((pure none).bind (hrest condition thenBranch))

theorem whileStatement (he : RepeatsWithin true r e e') (hs : RepeatsWithin true r s s')
    (start : Location) :
    RepeatsWithin true r (whileStatement e s start) (whileStatement e' s' start) :=
  (expect _ _).bind fun _ => he.bind fun _ => (expect _ _).bind fun _ =>
    hs.bind fun _ => (spanFrom _).bind fun _ => .pure _

end RepeatsWithin

theorem RepeatsBelow.expressionStatement (he : RepeatsBelow (r + 1) e e') :
    RepeatsBelow (r + 1) (expressionStatement e) (expressionStatement e') :=
  .here_bind fun start => he.bind fun _ => (RepeatsWithin.expect _ _).bind fun _ =>
    (RepeatsWithin.spanFrom start).bind fun _ => .pure _

namespace RepeatsWithin

theorem expressionStatement (he : RepeatsWithin true r e e') :
    RepeatsWithin true r (expressionStatement e) (expressionStatement e') :=
  here.bind fun start => he.bind fun _ => (expect _ _).bind fun _ =>
    (spanFrom start).bind fun _ => .pure _

theorem forInitializer (he : RepeatsWithin true r e e') :
    RepeatsWithin false r (forInitializer e) (forInitializer e') := by
  refine here.bind fun start => peek?.bind fun kind => ?_
  split
  · exact advance.bind fun _ => .pure _
  · exact advance.bind fun _ => ((varDeclaration he start).map some).weaken
  · exact ((expressionStatement he).map _).weaken

theorem optionalBefore (kind : Token.Kind) (he : RepeatsWithin true r e e') :
    RepeatsWithin false r (optionalBefore kind e) (optionalBefore kind e') :=
  (check kind).bind fun _ => .ite (.pure none) (he.map some).weaken

theorem forStatement (he : RepeatsWithin true r e e') (hs : RepeatsWithin true r s s')
    (start : Location) :
    RepeatsWithin true r (forStatement e s start) (forStatement e' s' start) :=
  (expect _ _).bind fun _ => (forInitializer he).bind fun _ =>
    (optionalBefore .semicolon he).bind fun _ => (expect _ _).bind fun _ =>
      (optionalBefore .rightParen he).bind fun _ => (expect _ _).bind fun _ =>
        hs.bind fun _ => (spanFrom _).bind fun _ => .pure _

theorem returnStatement (he : RepeatsWithin true r e e') (start : Location) :
    RepeatsWithin true r (returnStatement e start) (returnStatement e' start) :=
  (optionalBefore .semicolon he).bind fun _ => (expect _ _).bind fun _ =>
    (spanFrom _).bind fun _ => .pure _

theorem breakStatement (start : Location) :
    RepeatsWithin true r (breakStatement start) (breakStatement start) :=
  (expect _ _).bind fun _ => (spanFrom _).bind fun _ => .pure _

theorem continueStatement (start : Location) :
    RepeatsWithin true r (continueStatement start) (continueStatement start) :=
  (expect _ _).bind fun _ => (spanFrom _).bind fun _ => .pure _

end RepeatsWithin

/-- A statement begins with a word that is passed, or is an expression. -/
theorem RepeatsBelow.statementWith (he : RepeatsBelow (r + 1) e e') (hs : RepeatsBelow r s s')
    (hd : RepeatsInside r d d') :
    RepeatsBelow (r + 1) (statementWith e s d) (statementWith e' s' d') := by
  have hwithin := (he.of_le (Nat.le_succ r)).within
  refine .here_bind fun start c hc => .peek_bind fun kind hkind => ?_
  split
  · exact .word hkind hc (.printStatement hwithin start)
  · exact .word hkind hc (.blockStatement hd start)
  · exact .word hkind hc (.ifStatement hwithin hs.within start)
  · exact .word hkind hc (.whileStatement hwithin hs.within start)
  · exact .word hkind hc (.forStatement hwithin hs.within start)
  · exact .word hkind hc (.returnStatement hwithin start)
  · exact .word hkind hc (.breakStatement start)
  · exact .word hkind hc (.continueStatement start)
  · exact he.expressionStatement c hc

theorem RepeatsBelow.declarationWith (he : RepeatsBelow r e e') (hs : RepeatsBelow (r + 1) s s')
    (hd : RepeatsInside r d d') :
    RepeatsBelow (r + 1) (declarationWith mode e s d) (declarationWith mode e' s' d') := by
  refine .here_bind fun start c hc => .peek_bind fun kind hkind => ?_
  split
  · exact .word hkind hc (.classDeclaration hd start)
  · exact .word hkind hc ((RepeatsBelow.function hd "function" start).within.map _)
  · exact .word hkind hc (.varDeclaration he.within start)
  · exact (hs.map _) c hc

end Declarations

/-! ## Recursion -/

/-- The recursive productions, at any bounds that leave four levels for each of fewer than `r`
tokens. -/
structure Roomy (mode : Mode) (r : Nat) : Prop where
  unary : ∀ n n', 4 * r ≤ n + 3 → 4 * r ≤ n' + 3 → RepeatsBelow r (unary mode n) (unary mode n')
  assignment : ∀ n n', 4 * r ≤ n + 2 → 4 * r ≤ n' + 2 →
    RepeatsBelow r (assignment mode n) (assignment mode n')
  statement : ∀ n n', 4 * r ≤ n + 1 → 4 * r ≤ n' + 1 →
    RepeatsBelow r (statement mode n) (statement mode n')
  declaration : ∀ n n', 4 * r ≤ n → 4 * r ≤ n' →
    RepeatsInside r (declaration mode n) (declaration mode n')

/-- **Enough room.** The induction is on the number of tokens; the four productions are taken in the
order in which they call each other in front of the same token. -/
theorem roomy (mode : Mode) (r : Nat) : Roomy mode r := by
  induction r with
  | zero =>
      constructor <;> intros <;> intro c
      · exact fun hc => absurd hc (Nat.not_lt_zero _)
      · exact fun hc => absurd hc (Nat.not_lt_zero _)
      · exact fun hc => absurd hc (Nat.not_lt_zero _)
      · exact fun _ hc => absurd hc (Nat.not_lt_zero _)
  | succ r ih =>
      -- a production calls the one before it with one unit less in front of the same token, and all of
      -- them behind a token, where the hypothesis holds of what is left
      have hunary (n n' : Nat) (hn : 4 * (r + 1) ≤ n + 3) (hn' : 4 * (r + 1) ≤ n' + 3) :
          RepeatsBelow (r + 1) (unary mode n) (unary mode n') := by
        obtain ⟨m, rfl⟩ : ∃ m, n = m + 1 := ⟨n - 1, by omega⟩
        obtain ⟨m', rfl⟩ : ∃ m', n' = m' + 1 := ⟨n' - 1, by omega⟩
        unfold Parsing.unary
        refine .nested (.unaryWith ?_ ?_)
        · exact ih.unary m m' (by omega) (by omega)
        · exact ih.assignment m m' (by omega) (by omega)
      have hassignment (n n' : Nat) (hn : 4 * (r + 1) ≤ n + 2) (hn' : 4 * (r + 1) ≤ n' + 2) :
          RepeatsBelow (r + 1) (assignment mode n) (assignment mode n') := by
        obtain ⟨m, rfl⟩ : ∃ m, n = m + 1 := ⟨n - 1, by omega⟩
        obtain ⟨m', rfl⟩ : ∃ m', n' = m' + 1 := ⟨n' - 1, by omega⟩
        unfold Parsing.assignment
        refine .nested (.assignmentWith ?_ ?_)
        · exact hunary m m' (by omega) (by omega)
        · exact ih.assignment m m' (by omega) (by omega)
      have hstatement (n n' : Nat) (hn : 4 * (r + 1) ≤ n + 1) (hn' : 4 * (r + 1) ≤ n' + 1) :
          RepeatsBelow (r + 1) (statement mode n) (statement mode n') := by
        obtain ⟨m, rfl⟩ : ∃ m, n = m + 1 := ⟨n - 1, by omega⟩
        obtain ⟨m', rfl⟩ : ∃ m', n' = m' + 1 := ⟨n' - 1, by omega⟩
        unfold Parsing.statement
        refine .nested (.statementWith ?_ ?_ ?_)
        · exact hassignment m m' (by omega) (by omega)
        · exact ih.statement m m' (by omega) (by omega)
        · exact ih.declaration m m' (by omega) (by omega)
      refine ⟨hunary, hassignment, hstatement, ?_⟩
      intro n n' hn hn' c hne hc
      obtain ⟨m, rfl⟩ : ∃ m, n = m + 1 := ⟨n - 1, by omega⟩
      obtain ⟨m', rfl⟩ : ∃ m', n' = m' + 1 := ⟨n' - 1, by omega⟩
      unfold Parsing.declaration
      refine .recovered mode (RepeatsBelow.declarationWith ?_ ?_ ?_ c hc) hne
      · exact ih.assignment m m' (by omega) (by omega)
      · exact hstatement m m' (by omega) (by omega)
      · exact ih.declaration m m' (by omega) (by omega)

end Lox.Parsing
