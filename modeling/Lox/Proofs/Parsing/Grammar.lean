import Lox.Parsing.Program

/-!
# The grammar

The grammar of the language as relations between lists of tokens and syntax trees. A nonterminal
relates the tokens in front of it, its tree, and the tokens behind it; the rules follow the grammar
of the language one for one, and say nothing about how a parser finds a derivation. Trees are
**bare**: they carry no places.

The limits of the language are part of the rules. Every statement, assignment and unary expression
opens a nesting level, and a derivation has room for so many of them. Statements come in two
readings: in one an `else` may belong to any `if` before it, in the other only to the nearest.

## Contents
- `Expr.bare`, `Stmt.bare`, `Decl.bare`: syntax trees without their places.
- `Room`: how many nesting levels may still be opened.
- `Terminal`, `Name`: single tokens.
- `Assignment` to `Primary`: expressions.
- `Statement`, `Declaration` and their parts.
-/

namespace Lox

/-! ## Trees without places -/

/-- The place that stands for every place in a bare tree. -/
def bare : Span := default

def NameUse.bare (use : NameUse) : NameUse := { use with span := Lox.bare }

mutual

/-- An expression without its places. -/
def Expr.bare : Expr → Expr
  | .literal value _ => .literal value Lox.bare
  | .grouping inner _ => .grouping inner.bare Lox.bare
  | .unary op operand _ => .unary op operand.bare Lox.bare
  | .binary op left right _ => .binary op left.bare right.bare Lox.bare
  | .logical op left right _ => .logical op left.bare right.bare Lox.bare
  | .variable use => .variable use.bare
  | .assign name depth value _ => .assign name depth value.bare Lox.bare
  | .call callee args _ => .call callee.bare (Expr.bareAll args) Lox.bare
  | .get object name _ => .get object.bare name Lox.bare
  | .set object name value _ => .set object.bare name value.bare Lox.bare
  | .this depth _ => .this depth Lox.bare
  | .super depth method _ => .super depth method Lox.bare

/-- Expressions without their places. -/
def Expr.bareAll : List Expr → List Expr
  | [] => []
  | e :: es => e.bare :: Expr.bareAll es

end

/-- A parameter without its place. -/
def Param.bare (p : Param) : Param := { p with span := Lox.bare }

mutual

/-- A statement without its places. -/
def Stmt.bare : Stmt → Stmt
  | .expression value _ => .expression value.bare Lox.bare
  | .print value _ => .print value.bare Lox.bare
  | .block body _ => .block (Decl.bareAll body) Lox.bare
  | .ifThenElse condition thenBranch none _ =>
    .ifThenElse condition.bare thenBranch.bare none Lox.bare
  | .ifThenElse condition thenBranch (some elseBranch) _ =>
    .ifThenElse condition.bare thenBranch.bare (some elseBranch.bare) Lox.bare
  | .whileLoop condition body increment _ =>
    .whileLoop condition.bare body.bare (increment.map Expr.bare) Lox.bare
  | .break _ => .break Lox.bare
  | .continue _ => .continue Lox.bare
  | .return value _ => .return (value.map Expr.bare) Lox.bare

/-- A declaration without its places. -/
def Decl.bare : Decl → Decl
  | .var name initial _ => .var name (initial.map Expr.bare) Lox.bare
  | .function decl => .function decl.bare
  | .class name superclass methods _ =>
    .class name (superclass.map NameUse.bare) (FunctionDecl.bareAll methods) Lox.bare
  | .stmt s => .stmt s.bare

/-- Declarations without their places. -/
def Decl.bareAll : List Decl → List Decl
  | [] => []
  | d :: ds => d.bare :: Decl.bareAll ds

/-- A function without its places. -/
def FunctionDecl.bare : FunctionDecl → FunctionDecl
  | ⟨name, params, body, _⟩ => ⟨name, params.map Param.bare, Decl.bareAll body, Lox.bare⟩

/-- Functions without their places. -/
def FunctionDecl.bareAll : List FunctionDecl → List FunctionDecl
  | [] => []
  | f :: fs => f.bare :: FunctionDecl.bareAll fs

end

namespace Grammar

/-! ## Nesting levels and tokens -/

/-- How many nesting levels may still be opened. -/
inductive Room
  | unlimited
  | levels (n : Nat)

/-- Opening a level leaves so much room inside it. -/
inductive Room.Opens : Room → Room → Prop
  | unlimited : Opens .unlimited .unlimited
  | level {n : Nat} : Opens (.levels (n + 1)) (.levels n)

/-- A token of the given kind in front of others. -/
inductive Terminal (kind : Token.Kind) : List Token → List Token → Prop
  | intro {t : Token} {ts : List Token} : t.kind = kind → Terminal kind (t :: ts) ts

/-- An identifier in front of other tokens. -/
inductive Name : List Token → String → List Token → Prop
  | intro {t : Token} {ts : List Token} : t.kind = .identifier → Name (t :: ts) t.lexeme ts

/-! ## Operators -/

/-- Operators between two operands. -/
inductive Infix
  | binary (op : BinaryOp)
  | logical (op : LogicalOp)

/-- The tree of an operator with its operands. -/
def Infix.join : Infix → Expr → Expr → Expr
  | .binary op, left, right => .binary op left right bare
  | .logical op, left, right => .logical op left right bare

/-- The operators of one level of precedence, with their tokens. -/
abbrev Operators := List (Token.Kind × Infix)

/-- The levels of precedence, from the loosest to the tightest. -/
def precedence : List Operators :=
  [[(.or, .logical .or)],
   [(.and, .logical .and)],
   [(.bangEqual, .binary .notEqual), (.equalEqual, .binary .equal)],
   [(.greater, .binary .greater), (.greaterEqual, .binary .greaterEqual),
    (.less, .binary .less), (.lessEqual, .binary .lessEqual)],
   [(.minus, .binary .subtract), (.plus, .binary .add)],
   [(.slash, .binary .divide), (.star, .binary .multiply)]]

/-- The operators in front of one operand, with their tokens. -/
def signs : List (Token.Kind × UnaryOp) := [(.bang, .not), (.minus, .negate)]

/-! ## Expressions -/

mutual

/-- `assignment → ( call "." )? IDENTIFIER "=" assignment | logic_or`. The target of an assignment
counts as read through a unary expression, which opens one more level around it. -/
inductive Assignment : Room → List Token → Expr → List Token → Prop
  | variable {room inner target : Room} {us us₁ us₂ vs : List Token} {name : String}
      {value : Expr} :
      room.Opens inner → inner.Opens target → Name us name us₁ → Terminal .equal us₁ us₂ →
      Assignment inner us₂ value vs → Assignment room us (.assign name none value bare) vs
  | property {room inner target : Room} {us us₁ us₂ us₃ us₄ vs : List Token} {name : String}
      {object value : Expr} :
      room.Opens inner → inner.Opens target → Call target us object us₁ → Terminal .dot us₁ us₂ →
      Name us₂ name us₃ → Terminal .equal us₃ us₄ → Assignment inner us₄ value vs →
      Assignment room us (.set object name value bare) vs
  | operation {room inner : Room} {us vs : List Token} {e : Expr} :
      room.Opens inner → Operation inner precedence us e vs → Assignment room us e vs

/-- The levels from `logic_or` to `factor`: operands of the next tighter level, joined by operators
of this one and grouped to the left. Behind the tightest level come unary expressions. -/
inductive Operation : Room → List Operators → List Token → Expr → List Token → Prop
  | unary {room : Room} {us vs : List Token} {e : Expr} :
      Unary room us e vs → Operation room [] us e vs
  | operand {room : Room} {level : Operators} {levels : List Operators} {us vs : List Token}
      {e : Expr} :
      Operation room levels us e vs → Operation room (level :: levels) us e vs
  | join {room : Room} {level : Operators} {levels : List Operators} {kind : Token.Kind}
      {op : Infix} {us us₁ us₂ vs : List Token} {left right : Expr} :
      Operation room (level :: levels) us left us₁ → (kind, op) ∈ level → Terminal kind us₁ us₂ →
      Operation room levels us₂ right vs →
      Operation room (level :: levels) us (op.join left right) vs

/-- `unary → ( "!" | "-" ) unary | call`. -/
inductive Unary : Room → List Token → Expr → List Token → Prop
  | sign {room inner : Room} {kind : Token.Kind} {op : UnaryOp} {us us₁ vs : List Token}
      {operand : Expr} :
      room.Opens inner → (kind, op) ∈ signs → Terminal kind us us₁ →
      Unary inner us₁ operand vs → Unary room us (.unary op operand bare) vs
  | call {room inner : Room} {us vs : List Token} {e : Expr} :
      room.Opens inner → Call inner us e vs → Unary room us e vs

/-- `call → primary ( "(" arguments? ")" | "." IDENTIFIER )*`, grouped to the left. -/
inductive Call : Room → List Token → Expr → List Token → Prop
  | primary {room : Room} {us vs : List Token} {e : Expr} :
      Primary room us e vs → Call room us e vs
  | call {room : Room} {us us₁ us₂ us₃ vs : List Token} {callee : Expr} {args : List Expr} :
      Call room us callee us₁ → Terminal .leftParen us₁ us₂ → Arguments room us₂ args us₃ →
      Terminal .rightParen us₃ vs → Call room us (.call callee args bare) vs
  | property {room : Room} {us us₁ us₂ vs : List Token} {object : Expr} {name : String} :
      Call room us object us₁ → Terminal .dot us₁ us₂ → Name us₂ name vs →
      Call room us (.get object name bare) vs

/-- `arguments?`, with the limit on their number. -/
inductive Arguments : Room → List Token → List Expr → List Token → Prop
  | none {room : Room} {us : List Token} : Arguments room us [] us
  | some {room : Room} {us vs : List Token} {args : List Expr} :
      Expressions room us args vs → args.length ≤ 255 → Arguments room us args vs

/-- `expression ( "," expression )*`. -/
inductive Expressions : Room → List Token → List Expr → List Token → Prop
  | last {room : Room} {us vs : List Token} {e : Expr} :
      Assignment room us e vs → Expressions room us [e] vs
  | cons {room : Room} {us us₁ us₂ vs : List Token} {e : Expr} {es : List Expr} :
      Assignment room us e us₁ → Terminal .comma us₁ us₂ → Expressions room us₂ es vs →
      Expressions room us (e :: es) vs

/-- Literals, `this`, variables, parentheses and methods of the superclass. -/
inductive Primary : Room → List Token → Expr → List Token → Prop
  | false {room : Room} {us vs : List Token} :
      Terminal .false us vs → Primary room us (.literal (.bool false) bare) vs
  | true {room : Room} {us vs : List Token} :
      Terminal .true us vs → Primary room us (.literal (.bool true) bare) vs
  | nil {room : Room} {us vs : List Token} :
      Terminal .nil us vs → Primary room us (.literal .nil bare) vs
  | literal {room : Room} {t : Token} {ts : List Token} :
      t.kind = .number ∨ t.kind = .string → Primary room (t :: ts) (.literal t.literal bare) ts
  | this {room : Room} {us vs : List Token} :
      Terminal .this us vs → Primary room us (.this none bare) vs
  | variable {room : Room} {us vs : List Token} {name : String} :
      Name us name vs → Primary room us (.variable ⟨name, none, bare⟩) vs
  | grouping {room : Room} {us us₁ us₂ vs : List Token} {e : Expr} :
      Terminal .leftParen us us₁ → Assignment room us₁ e us₂ → Terminal .rightParen us₂ vs →
      Primary room us (.grouping e bare) vs
  | super {room : Room} {us us₁ us₂ vs : List Token} {method : String} :
      Terminal .super us us₁ → Terminal .dot us₁ us₂ → Name us₂ method vs →
      Primary room us (.super none method bare) vs

end

/-- `expression?` -/
inductive OptionalExpression (room : Room) : List Token → Option Expr → List Token → Prop
  | none {us : List Token} : OptionalExpression room us none us
  | some {us vs : List Token} {e : Expr} :
      Assignment room us e vs → OptionalExpression room us (some e) vs

/-! ## Parts of statements -/

/-- `exprStmt → expression ";"`. -/
inductive ExpressionStatement (room : Room) : List Token → Stmt → List Token → Prop
  | intro {us us₁ vs : List Token} {e : Expr} :
      Assignment room us e us₁ → Terminal .semicolon us₁ vs →
      ExpressionStatement room us (.expression e bare) vs

/-- `varDecl → "var" IDENTIFIER ( "=" expression )? ";"`. -/
inductive VarDeclaration (room : Room) : List Token → Decl → List Token → Prop
  | uninitialized {us us₁ us₂ vs : List Token} {name : String} :
      Terminal .var us us₁ → Name us₁ name us₂ → Terminal .semicolon us₂ vs →
      VarDeclaration room us (.var name none bare) vs
  | initialized {us us₁ us₂ us₃ us₄ vs : List Token} {name : String} {e : Expr} :
      Terminal .var us us₁ → Name us₁ name us₂ → Terminal .equal us₂ us₃ →
      Assignment room us₃ e us₄ → Terminal .semicolon us₄ vs →
      VarDeclaration room us (.var name (some e) bare) vs

/-- A keyword with a condition in parentheses. -/
inductive Condition (kind : Token.Kind) (room : Room) : List Token → Expr → List Token → Prop
  | intro {us us₁ us₂ us₃ vs : List Token} {e : Expr} :
      Terminal kind us us₁ → Terminal .leftParen us₁ us₂ → Assignment room us₂ e us₃ →
      Terminal .rightParen us₃ vs → Condition kind room us e vs

/-- `varDecl | exprStmt | ";"`. -/
inductive ForInitializer (room : Room) : List Token → Option Decl → List Token → Prop
  | none {us vs : List Token} : Terminal .semicolon us vs → ForInitializer room us none vs
  | declaration {us vs : List Token} {d : Decl} :
      VarDeclaration room us d vs → ForInitializer room us (some d) vs
  | expression {us vs : List Token} {s : Stmt} :
      ExpressionStatement room us s vs → ForInitializer room us (some (.stmt s)) vs

/-- The clauses of a `for` statement. -/
structure Clauses where
  initial : Option Decl
  condition : Option Expr
  increment : Option Expr

/-- What a `for` statement stands for: its first clause and a loop in a block of their own. A loop
without a condition goes on while true is true. -/
def Clauses.loop (c : Clauses) (body : Stmt) : Stmt :=
  .block
    (c.initial.toList ++
      [.stmt (.whileLoop (c.condition.getD (.literal (.bool true) bare)) body c.increment bare)])
    bare

/-- `"for" "(" ( varDecl | exprStmt | ";" ) expression? ";" expression? ")"`. -/
inductive ForClauses (room : Room) : List Token → Clauses → List Token → Prop
  | intro {us us₁ us₂ us₃ us₄ us₅ us₆ vs : List Token} {initial : Option Decl}
      {condition increment : Option Expr} :
      Terminal .for us us₁ → Terminal .leftParen us₁ us₂ → ForInitializer room us₂ initial us₃ →
      OptionalExpression room us₃ condition us₄ → Terminal .semicolon us₄ us₅ →
      OptionalExpression room us₅ increment us₆ → Terminal .rightParen us₆ vs →
      ForClauses room us ⟨initial, condition, increment⟩ vs

/-- `( "<" IDENTIFIER )?` -/
inductive Superclass : List Token → Option NameUse → List Token → Prop
  | none {us : List Token} : Superclass us none us
  | some {us us₁ vs : List Token} {name : String} :
      Terminal .less us us₁ → Name us₁ name vs → Superclass us (some ⟨name, none, bare⟩) vs

/-- `IDENTIFIER ( "," IDENTIFIER )*`. -/
inductive Names : List Token → List Param → List Token → Prop
  | last {us vs : List Token} {name : String} : Name us name vs → Names us [⟨name, bare⟩] vs
  | cons {us us₁ us₂ vs : List Token} {name : String} {names : List Param} :
      Name us name us₁ → Terminal .comma us₁ us₂ → Names us₂ names vs →
      Names us (⟨name, bare⟩ :: names) vs

/-- `parameters?`, with the limit on their number. -/
inductive Parameters : List Token → List Param → List Token → Prop
  | none {us : List Token} : Parameters us [] us
  | some {us vs : List Token} {params : List Param} :
      Names us params vs → params.length ≤ 255 → Parameters us params vs

/-! ## Statements and declarations -/

/-- Whether the next token is an `else`. -/
def ElseNext (us : List Token) : Prop := us.head?.map (·.kind) = some .else

mutual

/-- Statements. When `nearest` holds, an `if` without an `else` does not stand in front of one. -/
inductive Statement (nearest : Prop) : Room → List Token → Stmt → List Token → Prop
  | expression {room inner : Room} {us vs : List Token} {s : Stmt} :
      room.Opens inner → ExpressionStatement inner us s vs → Statement nearest room us s vs
  | print {room inner : Room} {us us₁ us₂ vs : List Token} {e : Expr} :
      room.Opens inner → Terminal .print us us₁ → Assignment inner us₁ e us₂ →
      Terminal .semicolon us₂ vs → Statement nearest room us (.print e bare) vs
  | block {room inner : Room} {us us₁ us₂ vs : List Token} {body : List Decl} :
      room.Opens inner → Terminal .leftBrace us us₁ → Declarations nearest inner us₁ body us₂ →
      Terminal .rightBrace us₂ vs → Statement nearest room us (.block body bare) vs
  | ifThen {room inner : Room} {us us₁ vs : List Token} {condition : Expr} {s : Stmt} :
      room.Opens inner → Condition .if inner us condition us₁ → Statement nearest inner us₁ s vs →
      (nearest → ¬ElseNext vs) → Statement nearest room us (.ifThenElse condition s none bare) vs
  | ifThenElse {room inner : Room} {us us₁ us₂ us₃ vs : List Token} {condition : Expr}
      {s s' : Stmt} :
      room.Opens inner → Condition .if inner us condition us₁ → Statement nearest inner us₁ s us₂ →
      Terminal .else us₂ us₃ → Statement nearest inner us₃ s' vs →
      Statement nearest room us (.ifThenElse condition s (some s') bare) vs
  | whileLoop {room inner : Room} {us us₁ vs : List Token} {condition : Expr} {s : Stmt} :
      room.Opens inner → Condition .while inner us condition us₁ →
      Statement nearest inner us₁ s vs →
      Statement nearest room us (.whileLoop condition s none bare) vs
  | forLoop {room inner : Room} {us us₁ vs : List Token} {clauses : Clauses} {s : Stmt} :
      room.Opens inner → ForClauses inner us clauses us₁ → Statement nearest inner us₁ s vs →
      Statement nearest room us (clauses.loop s) vs
  | break {room inner : Room} {us us₁ vs : List Token} :
      room.Opens inner → Terminal .break us us₁ → Terminal .semicolon us₁ vs →
      Statement nearest room us (.break bare) vs
  | continue {room inner : Room} {us us₁ vs : List Token} :
      room.Opens inner → Terminal .continue us us₁ → Terminal .semicolon us₁ vs →
      Statement nearest room us (.continue bare) vs
  | return {room inner : Room} {us us₁ us₂ vs : List Token} {e : Option Expr} :
      room.Opens inner → Terminal .return us us₁ → OptionalExpression inner us₁ e us₂ →
      Terminal .semicolon us₂ vs → Statement nearest room us (.return e bare) vs

/-- `declaration → classDecl | funDecl | varDecl | statement`. A class or a function opens no level
of its own. -/
inductive Declaration (nearest : Prop) : Room → List Token → Decl → List Token → Prop
  | class {room : Room} {us us₁ us₂ us₃ us₄ us₅ vs : List Token} {name : String}
      {superclass : Option NameUse} {methods : List FunctionDecl} :
      Terminal .class us us₁ → Name us₁ name us₂ → Superclass us₂ superclass us₃ →
      Terminal .leftBrace us₃ us₄ → Methods nearest room us₄ methods us₅ →
      Terminal .rightBrace us₅ vs →
      Declaration nearest room us (.class name superclass methods bare) vs
  | function {room : Room} {us us₁ vs : List Token} {f : FunctionDecl} :
      Terminal .fun us us₁ → Function nearest room us₁ f vs →
      Declaration nearest room us (.function f) vs
  | var {room : Room} {us vs : List Token} {d : Decl} :
      VarDeclaration room us d vs → Declaration nearest room us d vs
  | statement {room : Room} {us vs : List Token} {s : Stmt} :
      Statement nearest room us s vs → Declaration nearest room us (.stmt s) vs

/-- `declaration*`. -/
inductive Declarations (nearest : Prop) : Room → List Token → List Decl → List Token → Prop
  | nil {room : Room} {us : List Token} : Declarations nearest room us [] us
  | cons {room : Room} {us us₁ vs : List Token} {d : Decl} {ds : List Decl} :
      Declaration nearest room us d us₁ → Declarations nearest room us₁ ds vs →
      Declarations nearest room us (d :: ds) vs

/-- `function → IDENTIFIER "(" parameters? ")" block`. -/
inductive Function (nearest : Prop) : Room → List Token → FunctionDecl → List Token → Prop
  | intro {room : Room} {us us₁ us₂ us₃ us₄ us₅ us₆ vs : List Token} {name : String}
      {params : List Param} {body : List Decl} :
      Name us name us₁ → Terminal .leftParen us₁ us₂ → Parameters us₂ params us₃ →
      Terminal .rightParen us₃ us₄ → Terminal .leftBrace us₄ us₅ →
      Declarations nearest room us₅ body us₆ → Terminal .rightBrace us₆ vs →
      Function nearest room us ⟨name, params, body, bare⟩ vs

/-- `function*`. -/
inductive Methods (nearest : Prop) : Room → List Token → List FunctionDecl → List Token → Prop
  | nil {room : Room} {us : List Token} : Methods nearest room us [] us
  | cons {room : Room} {us us₁ vs : List Token} {f : FunctionDecl} {fs : List FunctionDecl} :
      Function nearest room us f us₁ → Methods nearest room us₁ fs vs →
      Methods nearest room us (f :: fs) vs

end

/-! ## First tokens -/

/-- The first token of `us` is one of the given kinds, and `vs` comes somewhere behind it. -/
inductive Begins (first : List Token.Kind) : List Token → List Token → Prop
  | intro {t : Token} {ts vs : List Token} :
      t.kind ∈ first → vs <:+ ts → Begins first (t :: ts) vs

/-- The tokens with which a call or a primary expression can begin. -/
def firstOfCall : List Token.Kind :=
  [.false, .true, .nil, .number, .string, .this, .identifier, .leftParen, .super]

/-- The tokens with which an expression can begin. -/
def firstOfExpression : List Token.Kind := firstOfCall ++ [.bang, .minus]

/-- The tokens with which a statement can begin. -/
def firstOfStatement : List Token.Kind :=
  firstOfExpression ++
    [.print, .leftBrace, .if, .while, .for, .break, .continue, .return]

/-- The tokens with which a declaration can begin. -/
def firstOfDeclaration : List Token.Kind := firstOfStatement ++ [.class, .fun, .var]

namespace Begins

variable {first : List Token.Kind} {us vs ws : List Token}

theorem length_lt (h : Begins first us vs) : vs.length < us.length := by
  cases h with
  | intro _ hsuffix => exact Nat.lt_succ_of_le hsuffix.length_le

theorem suffix (h : Begins first us vs) : vs <:+ us := by
  cases h with
  | intro _ hsuffix => exact hsuffix.trans (List.suffix_cons _ _)

theorem mono {first' : List Token.Kind} (h : Begins first us vs) (hsub : first ⊆ first') :
    Begins first' us vs := by
  cases h with
  | intro hkind hsuffix => exact .intro (hsub hkind) hsuffix

theorem append (h : Begins first us vs) (hsuffix : ws <:+ vs) : Begins first us ws := by
  cases h with
  | intro hkind hbehind => exact .intro hkind (hsuffix.trans hbehind)

/-- The next kind is one of the first ones. -/
theorem head (h : Begins first us vs) : ∃ kind ∈ first, us.head?.map (·.kind) = some kind := by
  cases h with
  | intro hfirst _ => exact ⟨_, hfirst, rfl⟩

/-- A kind that is not among the first ones is not the next one. -/
theorem head_ne (h : Begins first us vs) {kind : Token.Kind} (hkind : kind ∉ first) :
    us.head?.map (·.kind) ≠ some kind := by
  cases h with
  | intro hfirst _ =>
      intro heq
      exact hkind (Option.some.inj heq ▸ hfirst)

end Begins

theorem Terminal.begins {kind : Token.Kind} {us vs : List Token} (h : Terminal kind us vs) :
    Begins [kind] us vs := by
  cases h with
  | intro hkind => exact .intro (List.mem_singleton.2 hkind) (List.suffix_refl _)

theorem Terminal.head {kind : Token.Kind} {us vs : List Token} (h : Terminal kind us vs) :
    us.head?.map (·.kind) = some kind := by
  cases h with
  | intro hkind => exact congrArg some hkind

theorem Terminal.suffix {kind : Token.Kind} {us vs : List Token} (h : Terminal kind us vs) :
    vs <:+ us := h.begins.suffix

theorem Name.begins {us vs : List Token} {name : String} (h : Name us name vs) :
    Begins [.identifier] us vs := by
  cases h with
  | intro hkind => exact .intro (List.mem_singleton.2 hkind) (List.suffix_refl _)

theorem Name.suffix {us vs : List Token} {name : String} (h : Name us name vs) : vs <:+ us :=
  h.begins.suffix

mutual

theorem Assignment.begins {room : Room} {us vs : List Token} {e : Expr} :
    Assignment room us e vs → Begins firstOfExpression us vs
  | .variable _ _ hname hequal hvalue =>
    (hname.begins.mono (by decide)).append (hvalue.begins.suffix.trans hequal.suffix)
  | .property _ _ hobject hdot hname hequal hvalue =>
    (hobject.begins.mono (by decide)).append
      (hvalue.begins.suffix.trans (hequal.suffix.trans (hname.suffix.trans hdot.suffix)))
  | .operation _ h => h.begins

theorem Operation.begins {room : Room} {levels : List Operators} {us vs : List Token} {e : Expr} :
    Operation room levels us e vs → Begins firstOfExpression us vs
  | .unary h => h.begins
  | .operand h => h.begins
  | .join hleft _ hop hright =>
    hleft.begins.append (hright.begins.suffix.trans hop.suffix)

theorem Unary.begins {room : Room} {us vs : List Token} {e : Expr} :
    Unary room us e vs → Begins firstOfExpression us vs
  | .sign _ hmem hop hoperand => by
    refine (hop.begins.mono ?_).append hoperand.begins.suffix
    simp only [signs, List.mem_cons, List.not_mem_nil, or_false, Prod.mk.injEq] at hmem
    rcases hmem with ⟨rfl, rfl⟩ | ⟨rfl, rfl⟩ <;> decide
  | .call _ h => h.begins.mono (by decide)

theorem Call.begins {room : Room} {us vs : List Token} {e : Expr} :
    Call room us e vs → Begins firstOfCall us vs
  | .primary h => h.begins
  | .call hcallee hopen hargs hclose =>
    hcallee.begins.append (hclose.suffix.trans (hargs.suffix.trans hopen.suffix))
  | .property hobject hdot hname => hobject.begins.append (hname.suffix.trans hdot.suffix)

theorem Arguments.suffix {room : Room} {us vs : List Token} {args : List Expr} :
    Arguments room us args vs → vs <:+ us
  | .none => List.suffix_refl _
  | .some h _ => h.begins.suffix

theorem Expressions.begins {room : Room} {us vs : List Token} {es : List Expr} :
    Expressions room us es vs → Begins firstOfExpression us vs
  | .last h => h.begins
  | .cons h hcomma hs => h.begins.append (hs.begins.suffix.trans hcomma.suffix)

theorem Primary.begins {room : Room} {us vs : List Token} {e : Expr} :
    Primary room us e vs → Begins firstOfCall us vs
  | .false h | .true h | .nil h | .this h => h.begins.mono (by decide)
  | .literal hkind => by
    refine .intro ?_ (List.suffix_refl _)
    rcases hkind with h | h <;> rw [h] <;> decide
  | .variable h => h.begins.mono (by decide)
  | .grouping hopen h hclose =>
    (hopen.begins.mono (by decide)).append (hclose.suffix.trans h.begins.suffix)
  | .super hsuper hdot hname =>
    (hsuper.begins.mono (by decide)).append (hname.suffix.trans hdot.suffix)

end

theorem OptionalExpression.suffix {room : Room} {us vs : List Token} {e : Option Expr}
    (h : OptionalExpression room us e vs) : vs <:+ us := by
  cases h with
  | none => exact List.suffix_refl _
  | some h => exact h.begins.suffix

theorem ExpressionStatement.begins {room : Room} {us vs : List Token} {s : Stmt}
    (h : ExpressionStatement room us s vs) : Begins firstOfExpression us vs := by
  cases h with
  | intro he hsemicolon => exact he.begins.append hsemicolon.suffix

theorem VarDeclaration.begins {room : Room} {us vs : List Token} {d : Decl}
    (h : VarDeclaration room us d vs) : Begins [.var] us vs := by
  cases h with
  | uninitialized hvar hname hsemicolon =>
      exact hvar.begins.append (hsemicolon.suffix.trans hname.suffix)
  | initialized hvar hname hequal he hsemicolon =>
      exact hvar.begins.append (hsemicolon.suffix.trans
        (he.begins.suffix.trans (hequal.suffix.trans hname.suffix)))

theorem Condition.begins {kind : Token.Kind} {room : Room} {us vs : List Token} {e : Expr}
    (h : Condition kind room us e vs) : Begins [kind] us vs := by
  cases h with
  | intro hword hopen he hclose =>
      exact hword.begins.append (hclose.suffix.trans (he.begins.suffix.trans hopen.suffix))

theorem ForInitializer.suffix {room : Room} {us vs : List Token} {d : Option Decl}
    (h : ForInitializer room us d vs) : vs <:+ us := by
  cases h with
  | none h => exact h.suffix
  | declaration h => exact h.begins.suffix
  | expression h => exact h.begins.suffix

theorem ForClauses.begins {room : Room} {us vs : List Token} {clauses : Clauses}
    (h : ForClauses room us clauses vs) : Begins [.for] us vs := by
  cases h with
  | intro hword hopen hinitial hcondition hsemicolon hincrement hclose =>
      exact hword.begins.append (hclose.suffix.trans (hincrement.suffix.trans
        (hsemicolon.suffix.trans (hcondition.suffix.trans
          (hinitial.suffix.trans hopen.suffix)))))

theorem Superclass.suffix {us vs : List Token} {superclass : Option NameUse}
    (h : Superclass us superclass vs) : vs <:+ us := by
  cases h with
  | none => exact List.suffix_refl _
  | some hless hname => exact hname.suffix.trans hless.suffix

theorem Names.begins {us vs : List Token} {params : List Param} (h : Names us params vs) :
    Begins [.identifier] us vs := by
  induction h with
  | last hname => exact hname.begins
  | cons hname hcomma _ ih => exact hname.begins.append (ih.suffix.trans hcomma.suffix)

theorem Parameters.suffix {us vs : List Token} {params : List Param}
    (h : Parameters us params vs) : vs <:+ us := by
  cases h with
  | none => exact List.suffix_refl _
  | some h => exact h.begins.suffix

mutual

theorem Statement.begins {nearest : Prop} {room : Room} {us vs : List Token} {s : Stmt} :
    Statement nearest room us s vs → Begins firstOfStatement us vs
  | .expression _ h => h.begins.mono (by decide)
  | .print _ hword he hsemicolon =>
    (hword.begins.mono (by decide)).append (hsemicolon.suffix.trans he.begins.suffix)
  | .block _ hopen hbody hclose =>
    (hopen.begins.mono (by decide)).append (hclose.suffix.trans hbody.suffix)
  | .ifThen _ hcondition hthen _ =>
    (hcondition.begins.mono (by decide)).append hthen.begins.suffix
  | .ifThenElse _ hcondition hthen helse hotherwise =>
    (hcondition.begins.mono (by decide)).append
      (hotherwise.begins.suffix.trans (helse.suffix.trans hthen.begins.suffix))
  | .whileLoop _ hcondition hbody =>
    (hcondition.begins.mono (by decide)).append hbody.begins.suffix
  | .forLoop _ hclauses hbody => (hclauses.begins.mono (by decide)).append hbody.begins.suffix
  | .break _ hword hsemicolon | .continue _ hword hsemicolon =>
    (hword.begins.mono (by decide)).append hsemicolon.suffix
  | .return _ hword he hsemicolon =>
    (hword.begins.mono (by decide)).append (hsemicolon.suffix.trans he.suffix)

theorem Declaration.begins {nearest : Prop} {room : Room} {us vs : List Token} {d : Decl} :
    Declaration nearest room us d vs → Begins firstOfDeclaration us vs
  | .class hword hname hsuperclass hopen hmethods hclose =>
    (hword.begins.mono (by decide)).append (hclose.suffix.trans (hmethods.suffix.trans
      (hopen.suffix.trans (hsuperclass.suffix.trans hname.suffix))))
  | .function hword hfunction =>
    (hword.begins.mono (by decide)).append hfunction.begins.suffix
  | .var h => h.begins.mono (by decide)
  | .statement h => h.begins.mono (by decide)

theorem Declarations.suffix {nearest : Prop} {room : Room} {us vs : List Token}
    {ds : List Decl} : Declarations nearest room us ds vs → vs <:+ us
  | .nil => List.suffix_refl _
  | .cons hd hds => hds.suffix.trans hd.begins.suffix

theorem Function.begins {nearest : Prop} {room : Room} {us vs : List Token} {f : FunctionDecl} :
    Function nearest room us f vs → Begins [.identifier] us vs
  | .intro hname hopen hparams hclose hbrace hbody hend =>
    hname.begins.append (hend.suffix.trans (hbody.suffix.trans (hbrace.suffix.trans
      (hclose.suffix.trans (hparams.suffix.trans hopen.suffix)))))

theorem Methods.suffix {nearest : Prop} {room : Room} {us vs : List Token}
    {fs : List FunctionDecl} : Methods nearest room us fs vs → vs <:+ us
  | .nil => List.suffix_refl _
  | .cons hf hfs => hfs.suffix.trans hf.begins.suffix

end

end Grammar

end Lox
