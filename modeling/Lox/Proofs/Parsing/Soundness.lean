import Lox.Proofs.Parsing.Reading

/-!
# What the parser reads is derivable

A strict parser that succeeds has passed some tokens and made a tree, and the grammar derives that
tree from those tokens. There is one lemma for each production, on top of the readings of its parts;
the recursive ones are tied together by induction on the bound on the recursion.

## Contents
- `Reads.primary`, `Reads.call`, `Reads.unaryWith`: expressions below the operators.
- `Reads.assignmentWith`: assignments, whose target is read as an expression first.
- `Reads.classDeclaration`, `Reads.forStatement` and the others: declarations and statements.
- `Reads.program`: a program is derived from all tokens of its source.
-/

namespace Lox.Parsing

open Grammar

namespace Reads

/-! ## Expressions -/

/-- The tower of levels above unary expressions. -/
theorem disjunction {operand : Parser Expr}
    (h : Reads operand fun room us e vs => Unary room us e.bare vs) :
    Reads (disjunction operand) fun room us e vs => Operation room precedence us e.bare vs := by
  have hunary : Reads operand fun room us e vs => Operation room [] us e.bare vs :=
    h.mono fun _ _ _ _ => .unary
  have hfactor := chain implements_factor hunary
  have hterm := chain implements_term hfactor
  have hcomparison := chain implements_comparison hterm
  have hequality := chain implements_equality hcomparison
  exact chain implements_or (chain implements_and hequality)

theorem superMethod (start : Location) : Reads (superMethod start) fun _ us e vs =>
    ∃ ms method, Terminal .dot us ms ∧ Name ms method vs ∧
      e.bare = .super none method Lox.bare := by
  refine ((expect_terminal _ _).bind fun _ => (expect_name _).bind fun method =>
    (spanFrom _).bind fun _ => pure _).mono ?_
  rintro room us e vs ⟨_, ms, hdot, method, _, hname, _, _, rfl, rfl, rfl⟩
  exact ⟨ms, method.lexeme, hdot, hname, rfl⟩

section Expressions

variable {expression : Parser Expr}
  (h : Reads expression fun room us e vs => Assignment room us e.bare vs)

include h

theorem grouping (start : Location) : Reads (grouping expression start) fun room us e vs =>
    ∃ inner ms, Assignment room us inner ms ∧ Terminal .rightParen ms vs ∧
      e.bare = .grouping inner Lox.bare := by
  refine (h.bind fun inner => (expect_terminal _ _).bind fun _ => (spanFrom _).bind fun _ =>
    pure _).mono ?_
  rintro room us e vs ⟨inner, ms, hinner, _, _, hclose, _, _, rfl, rfl, rfl⟩
  exact ⟨inner.bare, ms, hinner, hclose, rfl⟩

/-- What is read behind the first token of a primary expression. -/
theorem behindFirst {t : Token} {p : Parser Expr} (hp : behindFirst expression t = some p) :
    Reads p fun room us e vs => Primary room (t :: us) e.bare vs := by
  -- a token that stands for itself
  have leaf {a : Expr} (hread : ∀ room us, Primary room (t :: us) a.bare us) :
      Reads (Pure.pure a : Parser Expr) fun room us e vs => Primary room (t :: us) e.bare vs := by
    refine (pure a).mono ?_
    rintro room us e vs ⟨rfl, rfl⟩
    exact hread room vs
  unfold Parsing.behindFirst at hp
  split at hp <;> rename_i hkind <;> cases hp
  · exact leaf fun _ _ => .false (.intro hkind)
  · exact leaf fun _ _ => .true (.intro hkind)
  · exact leaf fun _ _ => .nil (.intro hkind)
  · exact leaf fun _ _ => .literal (.inl hkind)
  · exact leaf fun _ _ => .literal (.inr hkind)
  · exact leaf fun _ _ => .this (.intro hkind)
  · exact leaf fun _ _ => .variable (.intro hkind)
  · refine (superMethod t.span.start).mono ?_
    rintro room us e vs ⟨ms, method, hdot, hname, hbare⟩
    rw [hbare]
    exact .super (.intro hkind) hdot hname
  · refine (grouping h t.span.start).mono ?_
    rintro room us e vs ⟨inner, ms, hinner, hclose, hbare⟩
    rw [hbare]
    exact .grouping (.intro hkind) hinner hclose

theorem primary : Reads (primary expression) fun room us e vs => Primary room us e.bare vs := by
  intro c e c' he
  obtain ⟨t, ts, p, hrest, hp, he⟩ := ok_of_primary he
  obtain ⟨hdepth, hprimary⟩ := behindFirst h hp c.advance e c' he
  have hroom : c.advance.room = c.room := by
    unfold Cursor.room
    rw [c.depth_advance]
  rw [hroom, c.rest_advance, hrest] at hprimary
  rw [hrest]
  exact ⟨hdepth.trans c.depth_advance, hprimary⟩

/-- Arguments, of which the last one allowed is the last one read. -/
theorem arguments : Reads (arguments .strict expression) fun room us args vs =>
    ∃ ms, Arguments room us (Expr.bareAll args) ms ∧ Terminal .rightParen ms vs := by
  -- the count is checked in front of each argument, so no more than 255 pass
  have hitem (count : Nat) : Reads
      (do Parsing.checkCount .strict "arguments" count; expression)
      fun room us e vs => Assignment room us e.bare vs ∧ count < maxArity := by
    refine ((checkCount "arguments" count).bind fun _ => h).mono ?_
    rintro room us e vs ⟨_, _, ⟨rfl, hcount⟩, he⟩
    exact ⟨he, hcount⟩
  have hitems := items (L := fun room us es vs => Expressions room us (Expr.bareAll es) vs)
    hitem (fun _ _ _ _ he => he.begins.length_lt) (fun _ _ _ _ => .last)
    (fun _ _ _ _ _ _ _ => .cons)
  have hclose (args : List Expr) :=
    (expect_terminal .rightParen "')' after arguments").bind fun _ => pure args
  refine ((check .rightParen).bind fun empty =>
    ite ((pure []).bind hclose) (hitems.bind hclose)).mono ?_
  rintro room us args vs ⟨empty, _, rfl, hnone | hsome⟩
  · obtain ⟨_, _, ⟨rfl, rfl⟩, _, _, hparen, rfl, rfl⟩ := hnone
    exact ⟨_, .none, hparen⟩
  · obtain ⟨args, ms, ⟨hlist, hcount⟩, _, _, hparen, rfl, rfl⟩ := hsome
    exact ⟨ms, .some hlist (by rw [length_bareAll]; exact hcount), hparen⟩

/-- The calls and property accesses read so far are grouped to the left. -/
theorem callFrom (n : Nat) (callee : Expr) :
    Reads (callFrom .strict expression n callee) fun room ms e vs =>
      ∀ us, Call room us callee.bare ms → Call room us e.bare vs := by
  induction n generalizing callee with
  | zero =>
      refine (pure callee).mono ?_
      rintro room ms e vs ⟨rfl, rfl⟩ us hcallee
      exact hcallee
  | succ n ih =>
      unfold Parsing.callFrom
      refine peek_bind fun kind => ?_
      split
      · refine (advance_bind ((arguments h).bind fun args => (spanFrom _).bind fun _ => ih _)
          .leftParen).mono ?_
        intro room ms e vs hread hkind us hcallee
        obtain ⟨ms₁, hopen, args, ms₂, ⟨ms₃, hargs, hclose⟩, _, _, rfl, hrest⟩ := hread hkind
        exact hrest us (.call hcallee hopen hargs hclose)
      · refine (advance_bind ((expect_name "property name after '.'").bind fun name => ih _)
          .dot).mono ?_
        intro room ms e vs hread hkind us hobject
        obtain ⟨ms₁, hdot, name, ms₂, hname, hrest⟩ := hread hkind
        exact hrest us (.property hobject hdot hname)
      · refine (pure callee).mono ?_
        rintro room ms e vs ⟨rfl, rfl⟩ _ us hcallee
        exact hcallee

theorem call : Reads (call .strict expression) fun room us e vs => Call room us e.bare vs := by
  refine ((primary h).bind fun e => remaining.bind fun n => callFrom h n e).mono ?_
  rintro room us e vs ⟨callee, ms, hcallee, n, _, ⟨_, rfl⟩, hrest⟩
  exact hrest us (.primary hcallee)

/-- A sign leaves its level to its operand. -/
theorem unaryWith {operand : Parser Expr}
    (hoperand : Reads operand fun room us e vs => Unary room us e.bare vs) :
    Reads (unaryWith .strict operand expression) fun inner us e vs =>
      ∀ room : Room, room.Opens inner → Unary room us e.bare vs := by
  refine (here.bind fun start => peek_bind
    (R := fun inner us e vs => ∀ room : Room, room.Opens inner → Unary room us e.bare vs)
    fun kind? => ?_).mono ?_
  · split
    · rename_i op hop
      obtain ⟨kind, rfl, hop⟩ := Option.bind_eq_some_iff.1 hop
      have hmem : (kind, op) ∈ signs := by
        cases kind <;> cases hop <;> decide
      refine (advance_bind (hoperand.bind fun e => (spanFrom _).bind fun _ => pure _) kind).mono ?_
      intro inner us e vs hread hkind room hopens
      obtain ⟨ms, hsign, operand, _, hoperand, _, _, rfl, rfl, rfl⟩ := hread hkind
      exact .sign hopens hmem hsign hoperand
    · exact (call h).mono fun inner us e vs hcall _ room hopens => .call hopens hcall
  · rintro inner us e vs ⟨_, _, rfl, hread⟩
    exact hread

end Expressions

/-! ## Assignments -/

/-- An expression that no operator joins is a unary one. -/
theorem unary_of_operation {room : Room} {levels : List Operators} {us vs : List Token} {e : Expr}
    (h : Operation room levels us e vs)
    (hjoin : ∀ (op : Infix) (left right : Expr), e ≠ op.join left right) : Unary room us e vs := by
  induction levels with
  | nil =>
      cases h with
      | unary h => exact h
  | cons level levels ih =>
      cases h with
      | operand h => exact ih h
      | join => exact absurd rfl (hjoin _ _ _)

/-- A target that is a variable is an identifier. -/
theorem name_of_operation {room : Room} {levels : List Operators} {us vs : List Token}
    {use : NameUse} (h : Operation room levels us (.variable use) vs) :
    ∃ inner, room.Opens inner ∧ Name us use.name vs := by
  have hunary := unary_of_operation h fun op left right => by cases op <;> exact nofun
  cases hunary with
  | call hopens hcall =>
      cases hcall with
      | primary hprimary =>
          cases hprimary with
          | «variable» hname => exact ⟨_, hopens, hname⟩

/-- A target that is a property is a call, a dot and an identifier. -/
theorem property_of_operation {room : Room} {levels : List Operators} {us vs : List Token}
    {object : Expr} {name : String} {span : Span}
    (h : Operation room levels us (.get object name span) vs) :
    ∃ inner us₁ us₂, room.Opens inner ∧ Call inner us object us₁ ∧ Terminal .dot us₁ us₂ ∧
      Name us₂ name vs := by
  have hunary := unary_of_operation h fun op left right => by cases op <;> exact nofun
  cases hunary with
  | call hopens hcall =>
      cases hcall with
      | primary hprimary => exact nomatch hprimary
      | property hobject hdot hname => exact ⟨_, _, _, hopens, hobject, hdot, hname⟩

/-- The target is read as an expression first, and then found to be a variable or a property. -/
theorem assignmentWith {operand value : Parser Expr}
    (hoperand : Reads operand fun room us e vs => Unary room us e.bare vs)
    (hvalue : Reads value fun room us e vs => Assignment room us e.bare vs) :
    Reads (assignmentWith .strict operand value) fun inner us e vs =>
      ∀ room : Room, room.Opens inner → Assignment room us e.bare vs := by
  -- only a variable or a property may be assigned to, and the tree of the target is all that is
  -- asked: how it was derived follows from the tree
  have hassign (target : Expr) (equals : Token) (value : Expr) :
      Reads (assignTo .strict equals target value) fun _ us e vs => vs = us ∧
        ((∃ use, target = .variable use ∧ e.bare = .assign use.name none value.bare bare) ∨
          ∃ object name span, target = .get object name span ∧
            e.bare = .set object.bare name value.bare bare) := by
    unfold assignTo
    split
    · refine (pure _).mono ?_
      rintro room us e vs ⟨rfl, rfl⟩
      exact ⟨rfl, .inl ⟨_, rfl, rfl⟩⟩
    · refine (pure _).mono ?_
      rintro room us e vs ⟨rfl, rfl⟩
      exact ⟨rfl, .inr ⟨_, _, _, rfl, rfl⟩⟩
    · exact fun _ _ _ h => nomatch h
  refine ((disjunction hoperand).bind fun target => (check .equal).bind fun equals => ite
    ((expect_terminal .equal "'='").bind fun token => hvalue.bind fun value =>
      hassign target token value) (pure target)).mono ?_
  rintro inner us e vs ⟨target, ms, htarget, _, _, rfl, hassigned | ⟨rfl, rfl⟩⟩ room hopens
  · obtain ⟨_, ms₁, hequal, value, ms₂, hvalue, rfl, ⟨use, rfl, he⟩ |
      ⟨object, name, span, rfl, he⟩⟩ := hassigned
    · obtain ⟨target, hopens', hname⟩ := name_of_operation htarget
      rw [he]
      exact .variable hopens hopens' hname hequal hvalue
    · obtain ⟨target, us₁, us₂, hopens', hobject, hdot, hname⟩ := property_of_operation htarget
      rw [he]
      exact .property hopens hopens' hobject hdot hname hequal hvalue
  · exact .operation hopens htarget

/-- Assignments and unary expressions, at any bound on the recursion. -/
theorem assignment_unary (n : Nat) :
    Reads (assignment .strict n) (fun room us e vs => Assignment room us e.bare vs) ∧
      Reads (unary .strict n) (fun room us e vs => Unary room us e.bare vs) := by
  induction n with
  | zero => exact ⟨fail _ _, fail _ _⟩
  | succ n ih =>
      obtain ⟨hassignment, hunary⟩ := ih
      constructor
      · refine (nested (assignmentWith hunary hassignment)).mono ?_
        rintro room us e vs ⟨inner, hopens, hread⟩
        exact hread room hopens
      · refine (nested (unaryWith hassignment hunary)).mono ?_
        rintro room us e vs ⟨inner, hopens, hread⟩
        exact hread room hopens

/-! ## Declarations -/

/-- Parameters, of which the last one allowed is the last one read. -/
theorem parameters : Reads (Parsing.items (parameter .strict)) fun _ us params vs =>
    Names us (params.map Param.bare) vs ∧ params.length ≤ maxArity := by
  have hitem (count : Nat) : Reads (parameter .strict count) fun _ us p vs =>
      (∃ name, p.bare = ⟨name, Lox.bare⟩ ∧ Name us name vs) ∧ count < maxArity := by
    refine ((checkCount "parameters" count).bind fun _ =>
      (expect_name _).bind fun name => pure _).mono ?_
    rintro room us p vs ⟨_, _, ⟨rfl, hcount⟩, name, _, hname, rfl, rfl⟩
    exact ⟨⟨name.lexeme, rfl, hname⟩, hcount⟩
  refine items (L := fun _ us params vs => Names us (params.map Param.bare) vs) hitem ?_ ?_ ?_
  · rintro room us p vs ⟨name, _, hname⟩
    exact hname.begins.length_lt
  · rintro room us p vs ⟨name, hp, hname⟩
    rw [List.map_singleton, hp]
    exact .last hname
  · rintro room us p us₁ us₂ ps vs ⟨name, hp, hname⟩ hcomma hps
    rw [List.map_cons, hp]
    exact .cons hname hcomma hps

section Declarations

variable {expression : Parser Expr} {statement : Parser Stmt} {declaration : Parser (Option Decl)}
  (he : Reads expression fun room us e vs => Assignment room us e.bare vs)
  (hs : Reads statement fun room us s vs => Statement True room us s.bare vs)
  (hd : Reads declaration fun room us d vs =>
    ∃ decl, d = some decl ∧ Declaration True room us decl.bare vs)

section

include hd

/-- The declarations end in front of a token that closes them: when the bound on the repetition is
reached, no token is left. -/
theorem declarationsFrom (closes : Option Token.Kind → Bool) (hcloses : closes none = true)
    (n : Nat) :
    Reads (declarationsFrom declaration closes n) fun room us ds vs =>
      Declarations True room us (Decl.bareAll ds) vs ∧
        (us.length ≤ n → closes (vs.head?.map (·.kind)) = true) := by
  induction n with
  | zero =>
      refine (pure []).mono ?_
      rintro room us ds vs ⟨rfl, rfl⟩
      -- a bound of zero suits no tokens but none
      refine ⟨.nil, fun hbound => ?_⟩
      rw [List.length_eq_zero_iff.1 (Nat.le_zero.1 hbound)]
      exact hcloses
  | succ n ih =>
      unfold Parsing.declarationsFrom
      refine peek_bind fun kind => ?_
      split
      · rename_i hkind
        refine (pure []).mono ?_
        rintro room us ds vs ⟨rfl, rfl⟩ heq
        exact ⟨.nil, fun _ => heq ▸ hkind⟩
      · refine (hd.bind fun first => ih.bind fun others => pure _).mono ?_
        rintro room us ds vs ⟨first, ms, ⟨decl, rfl, hfirst⟩, others, _, hothers, rfl, rfl⟩ _
        obtain ⟨hlist, hend⟩ := hothers
        refine ⟨.cons hfirst hlist, fun hbound => hend ?_⟩
        have hpassed := hfirst.begins.length_lt
        omega

theorem body : Reads (body declaration) fun room us ds vs =>
    ∃ ms, Declarations True room us (Decl.bareAll ds) ms ∧ Terminal .rightBrace ms vs := by
  refine (remaining.bind fun n => (declarationsFrom hd closesBody rfl n).bind fun decls =>
    (expect_terminal _ _).bind fun _ => pure decls).mono ?_
  rintro room us ds vs ⟨n, _, ⟨_, rfl⟩, decls, ms, ⟨hdecls, _⟩, _, _, hbrace, rfl, rfl⟩
  exact ⟨ms, hdecls, hbrace⟩

theorem function (kind : String) (start : Location) :
    Reads (function .strict declaration kind start) fun room us f vs =>
      Function True room us f.bare vs := by
  have hrest (name : Token) (params : List Param) :=
    (expect_terminal .rightParen "')' after parameters").bind fun _ =>
      (expect_terminal .leftBrace ("'\x7b' before " ++ kind ++ " body")).bind fun _ =>
        (body hd).bind fun decls => (spanFrom start).bind fun span =>
          pure (FunctionDecl.mk name.lexeme params decls span)
  refine ((expect_name _).bind fun name => (expect_terminal _ _).bind fun _ =>
    (check _).bind fun empty =>
      ite ((pure []).bind (hrest name)) (parameters.bind (hrest name))).mono ?_
  rintro room us f vs ⟨name, us₁, hname, _, _, hopen, _, us₂, rfl,
    ⟨_, _, ⟨rfl, rfl⟩, hrest⟩ | ⟨params, us₃, ⟨hnames, hcount⟩, hrest⟩⟩
  · obtain ⟨_, _, hclose, _, _, hbrace, decls, _, ⟨_, hdecls, hend⟩, _, _, rfl, rfl, rfl⟩ := hrest
    exact .intro hname hopen .none hclose hbrace hdecls hend
  · obtain ⟨_, _, hclose, _, _, hbrace, decls, _, ⟨_, hdecls, hend⟩, _, _, rfl, rfl, rfl⟩ := hrest
    have hparams := Parameters.some hnames (by rw [List.length_map]; exact hcount)
    exact .intro hname hopen hparams hclose hbrace hdecls hend

theorem methodsFrom (n : Nat) :
    Reads (methodsFrom (Parsing.function .strict declaration "method") n) fun room us fs vs =>
      Methods True room us (FunctionDecl.bareAll fs) vs := by
  induction n with
  | zero =>
      refine (pure []).mono ?_
      rintro room us fs vs ⟨rfl, rfl⟩
      exact .nil
  | succ n ih =>
      unfold Parsing.methodsFrom
      refine peek_bind fun kind => ?_
      split
      · refine (pure []).mono ?_
        rintro room us fs vs ⟨rfl, rfl⟩ _
        exact .nil
      · refine (here.bind fun start => (function hd "method" start).bind fun first =>
          ih.bind fun others => pure _).mono ?_
        rintro room us fs vs ⟨_, _, rfl, first, ms, hfirst, others, _, hothers, rfl, rfl⟩ _
        exact .cons hfirst hothers

end

theorem superclassClause : Reads superclassClause fun _ us superclass vs =>
    Superclass us (superclass.map NameUse.bare) vs := by
  refine (accept_bind ((expect_name _).bind fun name => pure _) (pure none)).mono ?_
  rintro room us superclass vs (⟨ms, hless, name, _, hname, rfl, rfl⟩ | ⟨_, rfl, rfl⟩)
  · exact .some hless hname
  · exact .none

include hd in
theorem classDeclaration (start : Location) :
    Reads (classDeclaration .strict declaration start) fun room us d vs =>
      ∀ us₀, Terminal .class us₀ us → Declaration True room us₀ d.bare vs := by
  refine ((expect_name _).bind fun name => superclassClause.bind fun superclass =>
    (expect_terminal _ _).bind fun _ => remaining.bind fun n =>
      (methodsFrom hd n).bind fun methods => (expect_terminal _ _).bind fun _ =>
        (spanFrom start).bind fun _ => pure _).mono ?_
  rintro room us d vs ⟨name, us₁, hname, superclass, us₂, hsuperclass, _, us₃, hopen, n, _,
    ⟨_, rfl⟩, methods, us₄, hmethods, _, _, hclose, _, _, rfl, rfl, rfl⟩ us₀ hword
  exact .class hword hname hsuperclass hopen hmethods hclose

include he in
theorem varDeclaration (start : Location) :
    Reads (varDeclaration expression start) fun room us d vs =>
      ∀ us₀, Terminal .var us₀ us → VarDeclaration room us₀ d.bare vs := by
  have hrest (name : Token) (initial : Option Expr) :=
    (expect_terminal .semicolon "';' after variable declaration").bind fun _ =>
      (spanFrom start).bind fun span => pure (Decl.var name.lexeme initial span)
  refine ((expect_name _).bind fun name => accept_bind ((map some he).bind (hrest name))
    ((pure none).bind (hrest name))).mono ?_
  rintro room us d vs ⟨name, us₁, hname, ⟨us₂, hequal, _, us₃, ⟨e, rfl, he⟩, hrest⟩ |
    ⟨_, _, _, ⟨rfl, rfl⟩, hrest⟩⟩ us₀ hword
  · obtain ⟨_, _, hsemicolon, _, _, rfl, rfl, rfl⟩ := hrest
    exact .initialized hword hname hequal he hsemicolon
  · obtain ⟨_, _, hsemicolon, _, _, rfl, rfl, rfl⟩ := hrest
    exact .uninitialized hword hname hsemicolon

/-! ## Statements -/

section

include he

theorem expressionStatement : Reads (expressionStatement expression) fun room us s vs =>
    ExpressionStatement room us s.bare vs := by
  refine (here.bind fun start => he.bind fun value => (expect_terminal _ _).bind fun _ =>
    (spanFrom start).bind fun _ => pure _).mono ?_
  rintro room us s vs ⟨_, _, rfl, value, us₁, hvalue, _, _, hsemicolon, _, _, rfl, rfl, rfl⟩
  exact .intro hvalue hsemicolon

theorem printStatement (start : Location) : Reads (printStatement expression start)
    fun inner us s vs => ∀ room us₀, room.Opens inner → Terminal .print us₀ us →
      Statement True room us₀ s.bare vs := by
  refine (he.bind fun value => (expect_terminal _ _).bind fun _ =>
    (spanFrom start).bind fun _ => pure _).mono ?_
  rintro inner us s vs ⟨value, us₁, hvalue, _, _, hsemicolon, _, _, rfl, rfl, rfl⟩ room us₀
    hopens hword
  exact .print hopens hword hvalue hsemicolon

theorem optionalBefore (kind : Token.Kind) : Reads (optionalBefore kind expression)
    fun room us e vs => OptionalExpression room us (e.map Expr.bare) vs := by
  refine ((check kind).bind fun absent => ite (pure none) (map some he)).mono ?_
  rintro room us e vs ⟨_, _, rfl, ⟨rfl, rfl⟩ | ⟨e, rfl, he⟩⟩
  · exact .none
  · exact .some he

theorem returnStatement (start : Location) : Reads (returnStatement expression start)
    fun inner us s vs => ∀ room us₀, room.Opens inner → Terminal .return us₀ us →
      Statement True room us₀ s.bare vs := by
  refine ((optionalBefore he .semicolon).bind fun value => (expect_terminal _ _).bind fun _ =>
    (spanFrom start).bind fun _ => pure _).mono ?_
  rintro inner us s vs ⟨value, us₁, hvalue, _, _, hsemicolon, _, _, rfl, rfl, rfl⟩ room us₀
    hopens hword
  exact .return hopens hword hvalue hsemicolon

theorem forInitializer : Reads (forInitializer expression) fun room us initial vs =>
    ForInitializer room us (initial.map Decl.bare) vs := by
  refine (here.bind fun start => peek_bind
    (R := fun room us initial vs => ForInitializer room us (initial.map Decl.bare) vs)
    fun kind => ?_).mono ?_
  · split
    · refine (advance_bind (pure none) .semicolon).mono ?_
      intro room us initial vs hread hkind
      obtain ⟨ms, hsemicolon, rfl, rfl⟩ := hread hkind
      exact .none hsemicolon
    · refine (advance_bind (map some (varDeclaration he start)) .var).mono ?_
      intro room us initial vs hread hkind
      obtain ⟨ms, hword, d, rfl, hd⟩ := hread hkind
      exact .declaration (hd us hword)
    · refine (map _ (expressionStatement he)).mono ?_
      rintro room us initial vs ⟨s, rfl, hs⟩ _
      exact .expression hs
  · rintro room us initial vs ⟨_, _, rfl, hread⟩
    exact hread

end

include hd in
theorem blockStatement (start : Location) : Reads (blockStatement declaration start)
    fun inner us s vs => ∀ room us₀, room.Opens inner → Terminal .leftBrace us₀ us →
      Statement True room us₀ s.bare vs := by
  refine ((body hd).bind fun decls => (spanFrom start).bind fun _ => pure _).mono ?_
  rintro inner us s vs ⟨decls, _, ⟨us₁, hdecls, hclose⟩, _, _, rfl, rfl, rfl⟩ room us₀ hopens hopen
  exact .block hopens hopen hdecls hclose

theorem breakStatement (start : Location) : Reads (breakStatement start)
    fun inner us s vs => ∀ room us₀, room.Opens inner → Terminal .break us₀ us →
      Statement True room us₀ s.bare vs := by
  refine ((expect_terminal _ _).bind fun _ => (spanFrom start).bind fun _ => pure _).mono ?_
  rintro inner us s vs ⟨_, _, hsemicolon, _, _, rfl, rfl, rfl⟩ room us₀ hopens hword
  exact .break hopens hword hsemicolon

theorem continueStatement (start : Location) : Reads (continueStatement start)
    fun inner us s vs => ∀ room us₀, room.Opens inner → Terminal .continue us₀ us →
      Statement True room us₀ s.bare vs := by
  refine ((expect_terminal _ _).bind fun _ => (spanFrom start).bind fun _ => pure _).mono ?_
  rintro inner us s vs ⟨_, _, hsemicolon, _, _, rfl, rfl, rfl⟩ room us₀ hopens hword
  exact .continue hopens hword hsemicolon

section

include he hs

/-- An `else` that follows belongs to this `if`, so one without an `else` is followed by none. -/
theorem ifStatement (start : Location) : Reads (ifStatement expression statement start)
    fun inner us s vs => ∀ room us₀, room.Opens inner → Terminal .if us₀ us →
      Statement True room us₀ s.bare vs := by
  have hrest (condition : Expr) (thenBranch : Stmt) (elseBranch : Option Stmt) :=
    (spanFrom start).bind fun span =>
      pure (Stmt.ifThenElse condition thenBranch elseBranch span)
  refine ((expect_terminal _ _).bind fun _ => he.bind fun condition =>
    (expect_terminal _ _).bind fun _ => hs.bind fun thenBranch =>
      accept_bind ((map some hs).bind (hrest condition thenBranch))
        ((pure none).bind (hrest condition thenBranch))).mono ?_
  rintro inner us s vs ⟨_, us₁, hopen, condition, us₂, hcondition, _, us₃, hclose, thenBranch, us₄,
    hthen, hrest⟩ room us₀ hopens hword
  rcases hrest with ⟨us₅, helse, _, us₆, ⟨elseBranch, rfl, hotherwise⟩, _, _, rfl, rfl, rfl⟩ |
    ⟨hnoElse, _, _, ⟨rfl, rfl⟩, _, _, rfl, rfl, rfl⟩
  · exact .ifThenElse hopens (.intro hword hopen hcondition hclose) hthen helse hotherwise
  · exact .ifThen hopens (.intro hword hopen hcondition hclose) hthen fun _ => hnoElse

theorem whileStatement (start : Location) : Reads (whileStatement expression statement start)
    fun inner us s vs => ∀ room us₀, room.Opens inner → Terminal .while us₀ us →
      Statement True room us₀ s.bare vs := by
  refine ((expect_terminal _ _).bind fun _ => he.bind fun condition =>
    (expect_terminal _ _).bind fun _ => hs.bind fun loopBody =>
      (spanFrom start).bind fun _ => pure _).mono ?_
  rintro inner us s vs ⟨_, us₁, hopen, condition, us₂, hcondition, _, us₃, hclose, loopBody, _,
    hbody, _, _, rfl, rfl, rfl⟩ room us₀ hopens hword
  exact .whileLoop hopens (.intro hword hopen hcondition hclose) hbody

theorem forStatement (start : Location) : Reads (forStatement expression statement start)
    fun inner us s vs => ∀ room us₀, room.Opens inner → Terminal .for us₀ us →
      Statement True room us₀ s.bare vs := by
  refine ((expect_terminal _ _).bind fun _ => (forInitializer he).bind fun initial =>
    (optionalBefore he .semicolon).bind fun condition => (expect_terminal _ _).bind fun _ =>
      (optionalBefore he .rightParen).bind fun increment => (expect_terminal _ _).bind fun _ =>
        hs.bind fun loopBody => (spanFrom start).bind fun _ => pure _).mono ?_
  rintro inner us s vs ⟨_, us₁, hopen, initial, us₂, hinitial, condition, us₃, hcondition, _, us₄,
    hsemicolon, increment, us₅, hincrement, _, us₆, hclose, loopBody, _, hbody, _, _, rfl, rfl,
    rfl⟩ room us₀ hopens hword
  rw [bare_forBlock]
  exact .forLoop hopens (.intro hword hopen hinitial hcondition hsemicolon hincrement hclose) hbody

end

include he hs hd

theorem statementWith : Reads (statementWith expression statement declaration)
    fun inner us s vs => ∀ room : Room, room.Opens inner → Statement True room us s.bare vs := by
  -- A statement that begins with a word of its own.
  have hword {p : Parser Stmt} {kind : Token.Kind} (h : Reads p fun inner us s vs =>
      ∀ room us₀, room.Opens inner → Terminal kind us₀ us → Statement True room us₀ s.bare vs) :
      Reads (advance >>= fun _ => p) fun inner us s vs => us.head?.map (·.kind) = some kind →
        ∀ room : Room, room.Opens inner → Statement True room us s.bare vs := by
    refine (advance_bind h kind).mono ?_
    intro inner us s vs hread hkind room hopens
    obtain ⟨ms, hterminal, hstatement⟩ := hread hkind
    exact hstatement room us hopens hterminal
  refine (here.bind fun start => peek_bind
    (R := fun inner us s vs => ∀ room : Room, room.Opens inner → Statement True room us s.bare vs)
    fun kind => ?_).mono ?_
  · split
    · exact hword (printStatement he start)
    · exact hword (blockStatement hd start)
    · exact hword (ifStatement he hs start)
    · exact hword (whileStatement he hs start)
    · exact hword (forStatement he hs start)
    · exact hword (returnStatement he start)
    · exact hword (breakStatement start)
    · exact hword (continueStatement start)
    · exact (expressionStatement he).mono fun inner us s vs h _ room hopens => .expression hopens h
  · rintro inner us s vs ⟨_, _, rfl, hread⟩
    exact hread

theorem declarationWith : Reads (declarationWith .strict expression statement declaration)
    fun room us d vs => Declaration True room us d.bare vs := by
  refine (here.bind fun start => peek_bind
    (R := fun room us d vs => Declaration True room us d.bare vs) fun kind => ?_).mono ?_
  · split
    · refine (advance_bind (classDeclaration hd start) .class).mono ?_
      intro room us d vs hread hkind
      obtain ⟨ms, hword, hclass⟩ := hread hkind
      exact hclass us hword
    · refine (advance_bind (map Decl.function (function hd "function" start)) .fun).mono ?_
      intro room us d vs hread hkind
      obtain ⟨ms, hword, f, rfl, hf⟩ := hread hkind
      exact .function hword hf
    · refine (advance_bind (varDeclaration he start) .var).mono ?_
      intro room us d vs hread hkind
      obtain ⟨ms, hword, hvar⟩ := hread hkind
      exact .var (hvar us hword)
    · refine (map Decl.stmt hs).mono ?_
      rintro room us d vs ⟨s, rfl, hs⟩ _
      exact .statement hs
  · rintro room us d vs ⟨_, _, rfl, hread⟩
    exact hread

end Declarations

/-- Statements and declarations, at any bound on the recursion. -/
theorem statement_declaration (n : Nat) :
    Reads (statement .strict n) (fun room us s vs => Statement True room us s.bare vs) ∧
      Reads (declaration .strict n) (fun room us d vs =>
        ∃ decl, d = some decl ∧ Declaration True room us decl.bare vs) := by
  induction n with
  | zero => exact ⟨fail _ _, fail _ _⟩
  | succ n ih =>
      obtain ⟨hstatement, hdeclaration⟩ := ih
      have hexpression := (assignment_unary n).1
      constructor
      · refine (nested (statementWith hexpression hstatement hdeclaration)).mono ?_
        rintro room us s vs ⟨inner, hopens, hread⟩
        exact hread room hopens
      · exact recovered (declarationWith hexpression hstatement hdeclaration)

/-- **A program that is read is derivable from all tokens.** -/
theorem program : Reads (program .strict) fun room us p _ =>
    Declarations True room us (Decl.bareAll p.body) [] := by
  refine (here.bind fun start => remaining.bind fun n =>
    (declarationsFrom (statement_declaration _).2 _ rfl n).bind fun decls =>
      here.bind fun stop => pure _).mono ?_
  rintro room us p vs ⟨_, _, rfl, n, _, ⟨rfl, rfl⟩, decls, _, ⟨hdecls, hend⟩, _, ms, rfl, rfl, _⟩
  have hnone := hend (Nat.le_refl _)
  cases ms with
  | nil => exact hdecls
  | cons t ts => exact nomatch hnone

end Reads

end Lox.Parsing
