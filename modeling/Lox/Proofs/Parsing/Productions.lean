import Lox.Proofs.Parsing.Accepting

/-!
# What each production accepts

One lemma for each production of the parser: when its parts accept their tokens, it accepts all of
them and makes the tree that the grammar gives them. The parsers of the parts are arbitrary here, as
they are in the definitions of the productions; `Completeness` ties them together.

## Contents
- `accepts_primary`, `starts_call`, `accepts_call`, `accepts_unary`: expressions below the operators.
- `Closed`, `accepts_assign`: assignments.
- `accepts_word`, `accepts_condition`: what the statements share.
- `accepts_ifThen`, `accepts_forStatement` and the others: statements.
- `accepts_classDeclaration`, `accepts_function` and the others: declarations.
-/

namespace Lox.Parsing

open Grammar

/-! ## Calls and unary expressions -/

section Calls

variable {expression : Parser Expr} {room : Room} {us us₁ us₂ us₃ vs : List Token}

/-- What a primary expression is after its first token. -/
theorem accepts_primary {t : Token} {ts : List Token} {p : Parser Expr} {P : Expr → Prop}
    (hchoice : behindFirst expression t = some p) (h : Accepts p room ts P vs) : Accepts (primary expression) room (t :: ts) P vs := by
  intro c hfits hrest
  obtain ⟨_, hbehind, hdepth⟩ :=
    Accepts.advance (.intro (show t.kind = t.kind from rfl)) c hfits hrest
  have hends := h c.advance (hfits.of_depth hdepth) hbehind
  rw [primary_eq hrest, hchoice, ← hdepth]
  exact hends

/-- A primary expression of one token. -/
theorem accepts_leaf {t : Token} {ts : List Token} (leaf : Span → Expr) {e : Expr}
    (hchoice : behindFirst expression t = some (Pure.pure (leaf t.span)))
    (hbare : ∀ span, (leaf span).bare = e) :
    Accepts (primary expression) room (t :: ts) (·.bare = e) ts :=
  accepts_primary hchoice (.pure (hbare t.span))

theorem accepts_name {name : String} (h : Name us name vs) :
    Accepts (primary expression) room us (·.bare = .variable ⟨name, none, bare⟩) vs := by
  cases h with
  | @intro t ts hkind =>
      refine accepts_leaf (fun span => .variable ⟨t.lexeme, none, span⟩) ?_ fun _ => rfl
      simp only [behindFirst, hkind]

theorem accepts_super {method : String} (hsuper : Terminal .super us us₁)
    (hdot : Terminal .dot us₁ us₂) (hname : Name us₂ method vs) :
    Accepts (primary expression) room us (·.bare = .super none method bare) vs := by
  cases hsuper with
  | @intro t ts hkind =>
      refine accepts_primary (p := superMethod t.span.start) ?_ ?_
      · simp only [behindFirst, hkind]
      · refine (Accepts.expect _ hdot).bind fun _ _ => (Accepts.expect_name _ hname).bind
          fun name hlexeme => (Accepts.spanFrom _).bind fun span _ => .pure ?_
        rw [← hlexeme]
        rfl

theorem accepts_grouping {e : Expr} (hopen : Terminal .leftParen us us₁)
    (he : Accepts expression room us₁ (·.bare = e) us₂) (hclose : Terminal .rightParen us₂ vs) :
    Accepts (primary expression) room us (·.bare = .grouping e bare) vs := by
  cases hopen with
  | @intro t ts hkind =>
      refine accepts_primary (p := grouping expression t.span.start) ?_ ?_
      · simp only [behindFirst, hkind]
      · refine he.bind fun inner hinner => (Accepts.expect _ hclose).bind fun _ _ =>
          (Accepts.spanFrom _).bind fun span _ => .pure ?_
        rw [← hinner]
        rfl

theorem starts_primary {e : Expr} (h : Accepts (primary expression) room us (·.bare = e) vs) :
    Starts (call .strict expression) (callFrom .strict expression) room us e vs := by
  intro P ws hrest
  refine h.bind fun e' he' => Accepts.remaining.bind fun n hn => ?_
  exact hrest n e' he' (Nat.le_of_eq hn.symm)

theorem starts_call {callee : Expr} {args : List Expr}
    (hcallee : Starts (call .strict expression) (callFrom .strict expression) room us callee us₁)
    (hopen : Terminal .leftParen us₁ us₂)
    (hargs : Accepts (arguments .strict expression) room us₂ (Expr.bareAll · = args) vs)
    (hsuffix : vs <:+ us₂) :
    Starts (call .strict expression) (callFrom .strict expression) room us
      (.call callee args bare) vs := by
  intro P ws hrest
  refine hcallee P ws fun n callee' hcallee' hn => ?_
  have hpassed : us₂.length < us₁.length := hopen.begins.length_lt
  have hbehind : vs.length ≤ us₂.length := hsuffix.length_le
  -- the bound counts the tokens left, and the parenthesis is one of them
  cases n with
  | zero => omega
  | succ n =>
      unfold callFrom
      refine Accepts.peek_bind hopen.head ?_
      refine (Accepts.advance hopen).bind fun _ _ => hargs.bind fun args' hargs' =>
        (Accepts.spanFrom _).bind fun span _ => hrest n _ ?_ (by omega)
      rw [← hcallee', ← hargs']
      rfl

theorem starts_property {object : Expr} {name : String}
    (hobject : Starts (call .strict expression) (callFrom .strict expression) room us object us₁)
    (hdot : Terminal .dot us₁ us₂) (hname : Name us₂ name vs) :
    Starts (call .strict expression) (callFrom .strict expression) room us
      (.get object name bare) vs := by
  intro P ws hrest
  refine hobject P ws fun n object' hobject' hn => ?_
  have hpassed : us₂.length < us₁.length := hdot.begins.length_lt
  have hbehind : vs.length ≤ us₂.length := hname.suffix.length_le
  cases n with
  | zero => omega
  | succ n =>
      unfold callFrom
      refine Accepts.peek_bind hdot.head ?_
      refine (Accepts.advance hdot).bind fun _ _ => (Accepts.expect_name _ hname).bind
        fun token htoken => hrest n _ ?_ (by omega)
      rw [← hobject', ← htoken]
      rfl

/-- A call is read when neither another call nor a property access follows. -/
theorem accepts_call {e : Expr}
    (h : Starts (call .strict expression) (callFrom .strict expression) room us e vs)
    (hstops : Stops [] vs) : Accepts (call .strict expression) room us (·.bare = e) vs := by
  refine h _ _ fun n e' he' _ => ?_
  cases n with
  | zero => exact .pure he'
  | succ n =>
      unfold callFrom
      refine Accepts.peek_bind rfl ?_
      split
      · rename_i hkind
        exact absurd hkind (hstops _ (by decide))
      · rename_i hkind
        exact absurd hkind (hstops _ (by decide))
      · exact .pure he'

end Calls

/-- A unary expression without a sign, at the next bound on the recursion. -/
theorem accepts_unary {n : Nat} {room inner : Room} {us vs : List Token} {e : Expr}
    (hopens : room.Opens inner)
    (h : Starts (call .strict (assignment .strict n)) (callFrom .strict (assignment .strict n))
      inner us e vs)
    (hfirst : Begins firstOfCall us vs) (hstops : Stops [] vs) :
    Accepts (unary .strict (n + 1)) room us (·.bare = e) vs := by
  refine .nested hopens (Accepts.here.bind fun start _ => ?_)
  obtain ⟨kind, hmem, hhead⟩ := hfirst.head
  refine Accepts.peek_bind hhead ?_
  -- no sign begins a call
  have hsign : (some kind).bind unaryOp? = none := by
    simp only [firstOfCall, List.mem_cons, List.not_mem_nil, or_false] at hmem
    rcases hmem with rfl | rfl | rfl | rfl | rfl | rfl | rfl | rfl | rfl <;> rfl
  rw [hsign]
  exact accepts_call h hstops

/-! ## Assignments -/

/-- Nothing goes on in front of these tokens that began as an expression. -/
def Closed (us : List Token) : Prop :=
  Stops precedence us ∧ us.head?.map (·.kind) ≠ some .equal

theorem closed_of_terminal {kind : Token.Kind} {us vs : List Token} (h : Terminal kind us vs)
    (hkind : kind ∈ [Token.Kind.rightParen, .comma, .semicolon]) : Closed us := by
  have hdistinct : kind ∉ .equal :: continuing precedence := by
    simp only [List.mem_cons, List.not_mem_nil, or_false] at hkind
    rcases hkind with rfl | rfl | rfl <;> decide
  refine ⟨stops_of_terminal h (List.not_mem_of_not_mem_cons hdistinct), ?_⟩
  rw [h.head]
  exact fun heq => List.ne_of_not_mem_cons hdistinct (Option.some.inj heq)

/-- An assignment whose target is read as an expression in front of the equals sign. -/
theorem accepts_assign {n : Nat} {room inner : Room} {us us₁ us₂ vs : List Token}
    {target value e : Expr} (hopens : room.Opens inner)
    (htarget : Accepts (unary .strict n) inner us (·.bare = target) us₁)
    (hequal : Terminal .equal us₁ us₂)
    (hvalue : Accepts (assignment .strict n) inner us₂ (·.bare = value) vs)
    (hassign : ∀ (equals : Token) (target' value' : Expr), target'.bare = target →
      value'.bare = value → Accepts (assignTo .strict equals target' value') inner vs (·.bare = e) vs) :
    Accepts (assignment .strict (n + 1)) room us (·.bare = e) vs := by
  have hstops : Stops precedence us₁ := stops_of_terminal hequal (by decide)
  refine .nested hopens ?_
  refine (accepts_tower (tower_disjunction _) htarget hstops).bind fun target' htarget' => ?_
  refine Accepts.check_bind hequal.head ?_
  refine (Accepts.expect _ hequal).bind fun equals _ => hvalue.bind fun value' hvalue' => ?_
  exact hassign equals target' value' htarget' hvalue'

theorem eq_variable_of_bare {e : Expr} {name : String}
    (h : e.bare = .variable ⟨name, none, bare⟩) : ∃ use, e = .variable use ∧ use.name = name := by
  cases e <;> simp only [Expr.bare, reduceCtorEq] at h
  rename_i use
  injection h with huse
  exact ⟨use, rfl, congrArg NameUse.name huse⟩

theorem eq_get_of_bare {e object : Expr} {name : String} (h : e.bare = .get object name bare) :
    ∃ object' span, e = .get object' name span ∧ object'.bare = object := by
  cases e <;> simp only [Expr.bare, reduceCtorEq] at h
  injection h with hobject hname
  subst hname
  exact ⟨_, _, rfl, hobject⟩

/-! ## Statements -/

section Shared

variable {α β : Type} {room : Room} {us us₁ us₂ us₃ vs : List Token} {P : α → Prop} {Q : β → Prop}

/-- A production that is chosen by the word it begins with. -/
theorem accepts_word {kind : Token.Kind} {choose : Location → Option Token.Kind → Parser α}
    {p : Location → Parser α} (hword : Terminal kind us us₁)
    (hchoose : ∀ start, choose start (some kind) = advance >>= fun _ => p start)
    (h : ∀ start, Accepts (p start) room us₁ P vs) :
    Accepts (here >>= fun start => peek? >>= choose start) room us P vs := by
  refine Accepts.here.bind fun start _ => Accepts.peek_bind hword.head ?_
  rw [hchoose]
  exact (Accepts.advance hword).bind fun _ _ => h start

/-- A condition in parentheses, and what is read behind it. -/
theorem accepts_condition {expression : Parser Expr} {e : Expr} {before behind : String}
    {rest : Expr → Parser β} (hopen : Terminal .leftParen us us₁)
    (he : Accepts expression room us₁ (·.bare = e) us₂) (hclose : Terminal .rightParen us₂ us₃)
    (hrest : ∀ e' : Expr, e'.bare = e → Accepts (rest e') room us₃ Q vs) :
    Accepts (do
      let _ ← expect .leftParen before
      let condition ← expression
      let _ ← expect .rightParen behind
      rest condition) room us Q vs := by
  refine (Accepts.expect _ hopen).bind fun _ _ => he.bind fun condition hcondition => ?_
  exact (Accepts.expect _ hclose).bind fun _ _ => hrest condition hcondition

end Shared

section Statements

variable {expression : Parser Expr} {statement : Parser Stmt} {declaration : Parser (Option Decl)}
  {room : Room} {us us₁ us₂ us₃ us₄ us₅ us₆ vs : List Token} {e : Expr} {e? : Option Expr}
  {s s' : Stmt} {ds : List Decl}

theorem accepts_expressionStatement (he : Accepts expression room us (·.bare = e) us₁)
    (hsemicolon : Terminal .semicolon us₁ vs) :
    Accepts (expressionStatement expression) room us (·.bare = .expression e bare) vs := by
  refine Accepts.here.bind fun start _ => he.bind fun value hvalue =>
    (Accepts.expect _ hsemicolon).bind fun _ _ => (Accepts.spanFrom _).bind fun _ _ => .pure ?_
  rw [← hvalue]
  rfl

theorem accepts_printStatement (he : Accepts expression room us (·.bare = e) us₁)
    (hsemicolon : Terminal .semicolon us₁ vs) (start : Location) :
    Accepts (printStatement expression start) room us (·.bare = .print e bare) vs := by
  refine he.bind fun value hvalue => (Accepts.expect _ hsemicolon).bind fun _ _ =>
    (Accepts.spanFrom _).bind fun _ _ => .pure ?_
  rw [← hvalue]
  rfl

/-- The declarations of a body, when they are read with any sufficient bound on the repetition. -/
theorem accepts_body
    (hdecls : ∀ m, us.length ≤ m →
      Accepts (declarationsFrom declaration closesBody m) room us (Decl.bareAll · = ds) us₁)
    (hclose : Terminal .rightBrace us₁ vs) :
    Accepts (body declaration) room us (Decl.bareAll · = ds) vs := by
  refine Accepts.remaining.bind fun m hm => ?_
  exact (hdecls m (Nat.le_of_eq hm.symm)).bind fun decls hdecls =>
    (Accepts.expect _ hclose).bind fun _ _ => .pure hdecls

theorem accepts_blockStatement (hbody : Accepts (body declaration) room us (Decl.bareAll · = ds) vs)
    (start : Location) :
    Accepts (blockStatement declaration start) room us (·.bare = .block ds bare) vs := by
  refine hbody.bind fun decls hdecls => (Accepts.spanFrom _).bind fun _ _ => .pure ?_
  rw [← hdecls]
  rfl

theorem accepts_ifThen (hopen : Terminal .leftParen us us₁)
    (he : Accepts expression room us₁ (·.bare = e) us₂) (hclose : Terminal .rightParen us₂ us₃)
    (hthen : Accepts statement room us₃ (·.bare = s) vs)
    (hnoElse : vs.head?.map (·.kind) ≠ some .else) (start : Location) :
    Accepts (ifStatement expression statement start) room us
      (·.bare = .ifThenElse e s none bare) vs := by
  refine accepts_condition hopen he hclose fun condition hcondition => ?_
  refine hthen.bind fun thenBranch hthenBranch => ?_
  refine Accepts.accept_bind_of_ne hnoElse (Accepts.pure_bind ?_)
  refine (Accepts.spanFrom _).bind fun _ _ => .pure ?_
  rw [← hcondition, ← hthenBranch]
  rfl

theorem accepts_ifThenElse (hopen : Terminal .leftParen us us₁)
    (he : Accepts expression room us₁ (·.bare = e) us₂) (hclose : Terminal .rightParen us₂ us₃)
    (hthen : Accepts statement room us₃ (·.bare = s) us₄) (helse : Terminal .else us₄ us₅)
    (hotherwise : Accepts statement room us₅ (·.bare = s') vs) (start : Location) :
    Accepts (ifStatement expression statement start) room us
      (·.bare = .ifThenElse e s (some s') bare) vs := by
  refine accepts_condition hopen he hclose fun condition hcondition => ?_
  refine hthen.bind fun thenBranch hthenBranch => Accepts.accept_bind helse ?_
  have helseBranch : Accepts (some <$> statement) room us₅ (∃ t, · = some t ∧ t.bare = s') vs :=
    .map some (hotherwise.mono fun t ht => ⟨t, rfl, ht⟩)
  refine helseBranch.bind ?_
  rintro _ ⟨elseBranch, rfl, helseBranch⟩
  refine (Accepts.spanFrom _).bind fun _ _ => .pure ?_
  rw [← hcondition, ← hthenBranch, ← helseBranch]
  rfl

theorem accepts_whileStatement (hopen : Terminal .leftParen us us₁)
    (he : Accepts expression room us₁ (·.bare = e) us₂) (hclose : Terminal .rightParen us₂ us₃)
    (hbody : Accepts statement room us₃ (·.bare = s) vs) (start : Location) :
    Accepts (whileStatement expression statement start) room us
      (·.bare = .whileLoop e s none bare) vs := by
  refine accepts_condition hopen he hclose fun condition hcondition => ?_
  refine hbody.bind fun loopBody hloopBody => (Accepts.spanFrom _).bind fun _ _ => .pure ?_
  rw [← hcondition, ← hloopBody]
  rfl

theorem accepts_forStatement {clauses : Clauses} (hopen : Terminal .leftParen us us₁)
    (hinitial : Accepts (forInitializer expression) room us₁ (·.map Decl.bare = clauses.initial) us₂)
    (hcondition : Accepts (optionalBefore .semicolon expression) room us₂
      (·.map Expr.bare = clauses.condition) us₃)
    (hsemicolon : Terminal .semicolon us₃ us₄)
    (hincrement : Accepts (optionalBefore .rightParen expression) room us₄
      (·.map Expr.bare = clauses.increment) us₅)
    (hclose : Terminal .rightParen us₅ us₆)
    (hbody : Accepts statement room us₆ (·.bare = s) vs) (start : Location) :
    Accepts (forStatement expression statement start) room us (·.bare = clauses.loop s) vs := by
  refine (Accepts.expect _ hopen).bind fun _ _ => hinitial.bind fun initial hinitial => ?_
  refine hcondition.bind fun condition hcondition => (Accepts.expect _ hsemicolon).bind fun _ _ => ?_
  refine hincrement.bind fun increment hincrement => (Accepts.expect _ hclose).bind fun _ _ => ?_
  refine hbody.bind fun loopBody hloopBody => (Accepts.spanFrom _).bind fun _ _ => .pure ?_
  rw [bare_forBlock, hinitial, hcondition, hincrement, hloopBody]

theorem accepts_returnStatement
    (he : Accepts (optionalBefore .semicolon expression) room us (·.map Expr.bare = e?) us₁)
    (hsemicolon : Terminal .semicolon us₁ vs) (start : Location) :
    Accepts (returnStatement expression start) room us (·.bare = .return e? bare) vs := by
  refine he.bind fun value hvalue => (Accepts.expect _ hsemicolon).bind fun _ _ =>
    (Accepts.spanFrom _).bind fun _ _ => .pure ?_
  rw [← hvalue]
  rfl

theorem accepts_breakStatement (hsemicolon : Terminal .semicolon us vs) (start : Location) :
    Accepts (breakStatement start) room us (·.bare = .break bare) vs :=
  (Accepts.expect _ hsemicolon).bind fun _ _ => (Accepts.spanFrom _).bind fun _ _ => .pure rfl

theorem accepts_continueStatement (hsemicolon : Terminal .semicolon us vs) (start : Location) :
    Accepts (continueStatement start) room us (·.bare = .continue bare) vs :=
  (Accepts.expect _ hsemicolon).bind fun _ _ => (Accepts.spanFrom _).bind fun _ _ => .pure rfl

end Statements

/-! ## Declarations -/

section Clauses

variable {room : Room} {us vs ws : List Token}

theorem accepts_superclass {superclass : Option NameUse} (h : Superclass us superclass vs)
    (hbrace : Terminal .leftBrace vs ws) :
    Accepts superclassClause room us (·.map NameUse.bare = superclass) vs := by
  cases h with
  | none => exact Accepts.accept_bind_of_ne (by rw [hbrace.head]; decide) (.pure rfl)
  | some hless hname =>
      refine Accepts.accept_bind hless ((Accepts.expect_name _ hname).bind fun name hlexeme => ?_)
      refine .pure ?_
      rw [← hlexeme]
      rfl

theorem accepts_parameter {count : Nat} {name : String} (h : Name us name vs)
    (hcount : count < maxArity) :
    Accepts (parameter .strict count) room us (·.bare = ⟨name, bare⟩) vs := by
  refine (Accepts.checkCount _ hcount).bind fun _ _ => (Accepts.expect_name _ h).bind
    fun token hlexeme => .pure ?_
  rw [← hlexeme]
  rfl

theorem accepts_names {params : List Param} (h : Names us params vs)
    (hcomma : vs.head?.map (·.kind) ≠ some .comma) (m count : Nat) (hm : us.length < m)
    (hcount : count + params.length ≤ maxArity) :
    Accepts (itemsFrom (parameter .strict) m count) room us (·.map Param.bare = params) vs := by
  induction h generalizing m count with
  | last hname =>
      obtain ⟨m, rfl⟩ : ∃ k, m = k + 1 := ⟨m - 1, by omega⟩
      refine (accepts_last (accepts_parameter hname hcount) hcomma).mono ?_
      rintro _ ⟨p, rfl, hp⟩
      exact congrArg (fun p => [p]) hp
  | cons hname hnext _ ih =>
      have hnameLength := hname.begins.length_lt
      have hnextLength := hnext.begins.length_lt
      obtain ⟨m, rfl⟩ : ∃ k, m = k + 1 := ⟨m - 1, by omega⟩
      rw [List.length_cons] at hcount
      refine (accepts_cons (accepts_parameter hname (by omega)) hnext
        (ih hcomma m (count + 1) (by omega) (by omega))).mono ?_
      rintro _ ⟨p, ps, rfl, hp, rfl⟩
      rw [List.map_cons, hp]

/-- The parameters of a function, and what is read behind them from the closing parenthesis on. -/
theorem accepts_parameters {params : List Param} {β : Type} {rest : List Param → Parser β}
    {P : β → Prop} {ms : List Token} (h : Parameters us params vs)
    (hclose : Terminal .rightParen vs ws)
    (hrest : ∀ ps : List Param, ps.map Param.bare = params → Accepts (rest ps) room vs P ms) :
    Accepts (do
      if ← check .rightParen then
        let ps ← Pure.pure []
        rest ps
      else
        let ps ← items (parameter .strict)
        rest ps) room us P ms := by
  cases h with
  | none => exact Accepts.check_bind hclose.head (hrest [] rfl)
  | some hnames hcount =>
      refine Accepts.check_bind_of_ne (hnames.begins.head_ne (by decide)) ?_
      have hitems : Accepts (items (parameter .strict)) room us (·.map Param.bare = params) vs := by
        refine Accepts.remaining.bind fun m hm => ?_
        exact accepts_names hnames (by rw [hclose.head]; decide) (m + 1) 0 (by omega)
          (by simpa [maxArity] using hcount)
      exact hitems.bind hrest

end Clauses

section Declarations

variable {expression : Parser Expr} {declaration : Parser (Option Decl)} {room : Room}
  {us us₁ us₂ us₃ us₄ us₅ vs : List Token} {name : String} {e : Expr}

theorem accepts_varDeclaration (hname : Name us name us₁) (hsemicolon : Terminal .semicolon us₁ vs)
    (start : Location) :
    Accepts (varDeclaration expression start) room us (·.bare = .var name none bare) vs := by
  refine (Accepts.expect_name _ hname).bind fun token hlexeme => ?_
  refine Accepts.accept_bind_of_ne (by rw [hsemicolon.head]; decide) (Accepts.pure_bind ?_)
  refine (Accepts.expect _ hsemicolon).bind fun _ _ => (Accepts.spanFrom _).bind fun _ _ => .pure ?_
  rw [← hlexeme]
  rfl

theorem accepts_varDeclaration_initialized (hname : Name us name us₁)
    (hequal : Terminal .equal us₁ us₂) (he : Accepts expression room us₂ (·.bare = e) us₃)
    (hsemicolon : Terminal .semicolon us₃ vs) (start : Location) :
    Accepts (varDeclaration expression start) room us (·.bare = .var name (some e) bare) vs := by
  refine (Accepts.expect_name _ hname).bind fun token hlexeme => Accepts.accept_bind hequal ?_
  have hinitial : Accepts (some <$> expression) room us₂ (·.map Expr.bare = some e) us₃ :=
    .map some (he.mono fun e he => congrArg some he)
  refine hinitial.bind fun initial hinitial => (Accepts.expect _ hsemicolon).bind fun _ _ =>
    (Accepts.spanFrom _).bind fun _ _ => .pure ?_
  rw [← hinitial, ← hlexeme]
  rfl

theorem accepts_function {params : List Param} {ds : List Decl} (hname : Name us name us₁)
    (hopen : Terminal .leftParen us₁ us₂) (hparams : Parameters us₂ params us₃)
    (hclose : Terminal .rightParen us₃ us₄) (hbrace : Terminal .leftBrace us₄ us₅)
    (hbody : Accepts (body declaration) room us₅ (Decl.bareAll · = ds) vs) (kind : String)
    (start : Location) :
    Accepts (function .strict declaration kind start) room us (·.bare = ⟨name, params, ds, bare⟩)
      vs := by
  refine (Accepts.expect_name _ hname).bind fun token hlexeme =>
    (Accepts.expect _ hopen).bind fun _ _ => ?_
  refine accepts_parameters hparams hclose fun params hparams => ?_
  refine (Accepts.expect _ hclose).bind fun _ _ => (Accepts.expect _ hbrace).bind fun _ _ => ?_
  refine hbody.bind fun decls hdecls => (Accepts.spanFrom _).bind fun _ _ => .pure ?_
  rw [← hlexeme, ← hparams, ← hdecls]
  rfl

/-- A class whose methods are read with any sufficient bound on the repetition. -/
theorem accepts_classDeclaration {superclass : Option NameUse} {fs : List FunctionDecl}
    (hname : Name us name us₁) (hsuperclass : Superclass us₁ superclass us₂)
    (hopen : Terminal .leftBrace us₂ us₃)
    (hmethods : ∀ m, us₃.length ≤ m →
      Accepts (methodsFrom (function .strict declaration "method") m) room us₃
        (FunctionDecl.bareAll · = fs) us₄)
    (hclose : Terminal .rightBrace us₄ vs) (start : Location) :
    Accepts (classDeclaration .strict declaration start) room us
      (·.bare = .class name superclass fs bare) vs := by
  refine (Accepts.expect_name _ hname).bind fun token hlexeme => ?_
  refine (accepts_superclass hsuperclass hopen).bind fun superclass hsuperclass => ?_
  refine (Accepts.expect _ hopen).bind fun _ _ => Accepts.remaining.bind fun m hm => ?_
  refine (hmethods m (Nat.le_of_eq hm.symm)).bind fun methods hmethods =>
    (Accepts.expect _ hclose).bind fun _ _ => (Accepts.spanFrom _).bind fun _ _ => .pure ?_
  rw [← hlexeme, ← hsuperclass, ← hmethods]
  rfl

end Declarations

end Lox.Parsing
