import Lox.Proofs.Parsing.Acceptance
import Lox.Proofs.Scanning.Pieces

/-!
# How deep statements enclose each other

The parser opens a nesting level for every statement, but reads a declaration, and with it the body
of a function or a class, at the level where it stands. So the levels bound how many statements
enclose a node when functions and classes are not counted, and nothing bounds how many functions do.

## Contents
- `Program.around`: the most statements that a node of a program lies inside.
- `Program.functionsAround`: the most functions and classes that a node lies inside.
- `Holds`: what is enclosed fits in the room in which it was read.
- `around_program`: without functions and classes no node lies inside more than 200 statements.
- `nestedFunctions`: function after function, each in the body of the one before.
- `nesting_passes_functions`, `deep_functions_accepted`: what is bounded, and what is not.
-/

namespace Lox

/-! ## What encloses a node -/

mutual

/-- The most statements that a node below `s` lies inside, `s` among them. A function or a class
counts `weight`. A loop directly inside a block with the same place came with the block from one
`for` statement, and is counted with it; `inside` is the place of the block around `s`. -/
def Stmt.around (weight : Nat) (inside : Option Span) : Stmt → Nat
  | .expression _ _ => 1
  | .print _ _ => 1
  | .block [] _ => 0
  | .block (d :: ds) span => 1 + Decl.aroundAll weight (some span) (d :: ds)
  | .ifThenElse _ thenBranch none _ => 1 + thenBranch.around weight none
  | .ifThenElse _ thenBranch (some elseBranch) _ =>
    1 + max (thenBranch.around weight none) (elseBranch.around weight none)
  | .whileLoop _ body _ span =>
    (if inside = some span then 0 else 1) + body.around weight none
  | .break _ => 0
  | .continue _ => 0
  | .return none _ => 0
  | .return (some _) _ => 1

/-- The most statements that a node below a declaration lies inside, the declaration among them. -/
def Decl.around (weight : Nat) (inside : Option Span) : Decl → Nat
  | .var _ none _ => 0
  | .var _ (some _) _ => 1
  | .function f => f.around weight
  | .class _ none [] _ => 0
  | .class _ (some _) [] _ => weight
  | .class _ _ (f :: fs) _ => weight + FunctionDecl.aroundAll weight (f :: fs)
  | .stmt s => s.around weight inside

/-- The most statements that a node below some declarations lies inside. -/
def Decl.aroundAll (weight : Nat) (inside : Option Span) : List Decl → Nat
  | [] => 0
  | d :: ds => max (d.around weight inside) (Decl.aroundAll weight inside ds)

/-- The most statements that a node below a function lies inside, the function among them. -/
def FunctionDecl.around (weight : Nat) : FunctionDecl → Nat
  | ⟨_, [], [], _⟩ => 0
  | ⟨_, _ :: _, [], _⟩ => weight
  | ⟨_, _, d :: ds, _⟩ => weight + Decl.aroundAll weight none (d :: ds)

/-- The most statements that a node below some functions lies inside. -/
def FunctionDecl.aroundAll (weight : Nat) : List FunctionDecl → Nat
  | [] => 0
  | f :: fs => max (f.around weight) (FunctionDecl.aroundAll weight fs)

end

/-- The most statements that a node of a program lies inside, where a function or a class counts
`weight`. -/
def Program.around (weight : Nat) (p : Program) : Nat := Decl.aroundAll weight none p.body

mutual

/-- The most functions and classes that a node below a statement lies inside. -/
def Stmt.functionsAround : Stmt → Nat
  | .expression _ _ => 0
  | .print _ _ => 0
  | .block body _ => Decl.functionsAroundAll body
  | .ifThenElse _ thenBranch none _ => thenBranch.functionsAround
  | .ifThenElse _ thenBranch (some elseBranch) _ =>
    max thenBranch.functionsAround elseBranch.functionsAround
  | .whileLoop _ body _ _ => body.functionsAround
  | .break _ => 0
  | .continue _ => 0
  | .return _ _ => 0

/-- The most functions and classes that a node below a declaration lies inside. -/
def Decl.functionsAround : Decl → Nat
  | .var _ _ _ => 0
  | .function f => f.functionsAround
  | .class _ _ methods _ => 1 + FunctionDecl.functionsAroundAll methods
  | .stmt s => s.functionsAround

/-- The most functions and classes that a node below some declarations lies inside. -/
def Decl.functionsAroundAll : List Decl → Nat
  | [] => 0
  | d :: ds => max d.functionsAround (Decl.functionsAroundAll ds)

/-- The most functions and classes that a node below a function lies inside. -/
def FunctionDecl.functionsAround : FunctionDecl → Nat
  | ⟨_, _, body, _⟩ => 1 + Decl.functionsAroundAll body

/-- The most functions and classes that a node below some functions lies inside. -/
def FunctionDecl.functionsAroundAll : List FunctionDecl → Nat
  | [] => 0
  | f :: fs => max f.functionsAround (FunctionDecl.functionsAroundAll fs)

end

/-- The most functions and classes that a node of a program lies inside. -/
def Program.functionsAround (p : Program) : Nat := Decl.functionsAroundAll p.body

mutual

/-- Counting functions and classes adds no more than there are around a node. -/
theorem Stmt.around_one_le (inside : Option Span) (s : Stmt) :
    s.around 1 inside ≤ s.around 0 inside + s.functionsAround := by
  cases s with
  | expression | print | «break» | «continue» =>
      simp only [Stmt.around]
      omega
  | block body span =>
      cases body with
      | nil =>
          simp only [Stmt.around]
          omega
      | cons d ds =>
          have hbody := Decl.aroundAll_one_le (some span) (d :: ds)
          simp only [Stmt.around, Stmt.functionsAround]
          omega
  | ifThenElse condition thenBranch elseBranch span =>
      have hthen := thenBranch.around_one_le none
      cases elseBranch with
      | none =>
          simp only [Stmt.around, Stmt.functionsAround]
          omega
      | some s =>
          have helse := s.around_one_le none
          simp only [Stmt.around, Stmt.functionsAround]
          omega
  | whileLoop condition body increment span =>
      have hbody := body.around_one_le none
      simp only [Stmt.around, Stmt.functionsAround]
      omega
  | «return» value span =>
      cases value <;> simp only [Stmt.around] <;> omega

theorem Decl.around_one_le (inside : Option Span) (d : Decl) :
    d.around 1 inside ≤ d.around 0 inside + d.functionsAround := by
  cases d with
  | var name initial span =>
      cases initial <;> simp only [Decl.around] <;> omega
  | function f =>
      simp only [Decl.around, Decl.functionsAround]
      exact f.around_one_le
  | «class» name superclass methods span =>
      have hmethods := FunctionDecl.aroundAll_one_le methods
      cases methods <;> cases superclass <;>
        simp only [Decl.around, Decl.functionsAround] <;> omega
  | stmt s =>
      simp only [Decl.around, Decl.functionsAround]
      exact s.around_one_le inside

theorem Decl.aroundAll_one_le (inside : Option Span) (ds : List Decl) :
    Decl.aroundAll 1 inside ds ≤ Decl.aroundAll 0 inside ds + Decl.functionsAroundAll ds := by
  cases ds with
  | nil => exact Nat.zero_le _
  | cons d ds =>
      have hd := d.around_one_le inside
      have hds := Decl.aroundAll_one_le inside ds
      simp only [Decl.aroundAll, Decl.functionsAroundAll]
      omega

theorem FunctionDecl.around_one_le (f : FunctionDecl) :
    f.around 1 ≤ f.around 0 + f.functionsAround := by
  obtain ⟨name, params, body, span⟩ := f
  have hbody := Decl.aroundAll_one_le none body
  cases body <;> cases params <;>
    simp only [FunctionDecl.around, FunctionDecl.functionsAround] <;> omega

theorem FunctionDecl.aroundAll_one_le (fs : List FunctionDecl) :
    FunctionDecl.aroundAll 1 fs ≤
      FunctionDecl.aroundAll 0 fs + FunctionDecl.functionsAroundAll fs := by
  cases fs with
  | nil => exact Nat.zero_le _
  | cons f fs =>
      have hf := f.around_one_le
      have hfs := FunctionDecl.aroundAll_one_le fs
      simp only [FunctionDecl.aroundAll, FunctionDecl.functionsAroundAll]
      omega

end

theorem Stmt.around_le (weight : Nat) (inside : Option Span) (s : Stmt) :
    s.around weight inside ≤ s.around weight none := by
  cases s with
  | whileLoop condition body increment span =>
      simp only [Stmt.around, reduceCtorEq, if_false]
      split <;> omega
  | block body span => cases body <;> exact Nat.le_of_eq (by simp only [Stmt.around])
  | ifThenElse condition thenBranch elseBranch span =>
      cases elseBranch <;> exact Nat.le_of_eq (by simp only [Stmt.around])
  | «return» value span => cases value <;> exact Nat.le_of_eq (by simp only [Stmt.around])
  | _ => exact Nat.le_of_eq (by simp only [Stmt.around])

theorem Decl.around_le (weight : Nat) (inside : Option Span) (d : Decl) :
    d.around weight inside ≤ d.around weight none := by
  cases d with
  | stmt s =>
      simp only [Decl.around]
      exact s.around_le weight inside
  | var name initial span => cases initial <;> exact Nat.le_of_eq (by simp only [Decl.around])
  | function f => exact Nat.le_of_eq (by simp only [Decl.around])
  | «class» name superclass methods span =>
      cases methods <;> cases superclass <;> exact Nat.le_of_eq (by simp only [Decl.around])

/-- A block around declarations only joins the loop that came with it, so it never adds to them. -/
theorem Decl.aroundAll_le (weight : Nat) (inside : Option Span) (ds : List Decl) :
    Decl.aroundAll weight inside ds ≤ Decl.aroundAll weight none ds := by
  induction ds with
  | nil => exact Nat.le_refl 0
  | cons d ds ih =>
      unfold Decl.aroundAll
      have hd := d.around_le weight inside
      omega

theorem Stmt.around_block_le (weight : Nat) (inside : Option Span) (ds : List Decl) (span : Span) :
    (Stmt.block ds span).around weight inside ≤ 1 + Decl.aroundAll weight none ds := by
  cases ds with
  | nil =>
      unfold Stmt.around
      omega
  | cons d ds =>
      unfold Stmt.around
      have hds := Decl.aroundAll_le weight (some span) (d :: ds)
      omega

theorem Decl.aroundAll_append (weight : Nat) (inside : Option Span) (ds es : List Decl) :
    Decl.aroundAll weight inside (ds ++ es) =
      max (Decl.aroundAll weight inside ds) (Decl.aroundAll weight inside es) := by
  induction ds with
  | nil => exact (Nat.max_eq_right (Nat.zero_le _)).symm
  | cons d ds ih =>
      rw [List.cons_append]
      simp only [Decl.aroundAll]
      rw [ih, Nat.max_assoc]

/-- A `for` statement counts once: its block, and no more for its loop. -/
theorem Parsing.around_forBlock (weight : Nat) (inside : Option Span) (initial : Option Decl)
    (condition increment : Option Expr) (loopBody : Stmt) (span : Span) :
    (forBlock initial condition increment loopBody span).around weight inside ≤
      1 + max (Decl.aroundAll weight none initial.toList) (loopBody.around weight none) := by
  have hblock (ds : List Decl) (hds : ds ≠ []) :
      (Stmt.block ds span).around weight inside =
        1 + Decl.aroundAll weight (some span) ds := by
    cases ds with
    | nil => exact absurd rfl hds
    | cons d ds => simp only [Stmt.around]
  unfold forBlock
  rw [hblock _ (by simp), Decl.aroundAll_append]
  have hinitial := Decl.aroundAll_le weight (some span) initial.toList
  -- the loop stands in a block with its own place
  have hloop : Decl.aroundAll weight (some span)
      [.stmt (.whileLoop (condition.getD (.literal (.bool true) span)) loopBody increment span)] =
        loopBody.around weight none := by
    simp [Decl.aroundAll, Decl.around, Stmt.around]
  rw [hloop]
  omega

namespace Parsing

open Grammar

/-! ## Enclosing statements fit in the room -/

/-- So many levels fit in the room. -/
def Holds : Room → Nat → Prop
  | .unlimited, _ => True
  | .levels n, k => k ≤ n

namespace Holds

variable {room inner : Room} {k l : Nat}

theorem mono (h : Holds room l) (hle : k ≤ l) : Holds room k := by
  cases room with
  | unlimited => trivial
  | levels n => exact Nat.le_trans hle h

theorem zero : Holds room 0 := by
  cases room with
  | unlimited => trivial
  | levels n => exact Nat.zero_le n

theorem max (hk : Holds room k) (hl : Holds room l) : Holds room (Nat.max k l) := by
  cases room with
  | unlimited => trivial
  | levels n => exact Nat.max_le.2 ⟨hk, hl⟩

/-- A level that was opened is one more around what was read inside it. -/
theorem level (hopens : room.Opens inner) (h : Holds inner k) : Holds room (1 + k) := by
  cases hopens with
  | unlimited => trivial
  | @level n =>
      show 1 + k ≤ n + 1
      have hk : k ≤ n := h
      omega

theorem of_assignment {us vs : List Token} {e : Expr} (h : Assignment room us e vs) :
    Holds room 1 := by
  cases h with
  | «variable» hopens => exact level hopens zero
  | property hopens => exact level hopens zero
  | operation hopens => exact level hopens zero

end Holds

/-- Functions and classes aside, what encloses the nodes of a statement fits in the room. -/
def StmtFits : Reading Stmt := fun room _ s _ => Holds room (s.around 0 none)

def DeclFits : Reading Decl := fun room _ d _ => Holds room (d.around 0 none)

def DeclsFit : Reading (List Decl) := fun room _ ds _ => Holds room (Decl.aroundAll 0 none ds)

def FunctionFits : Reading FunctionDecl := fun room _ f _ => Holds room (f.around 0)

section Productions

variable {expression : Parser Expr} {statement : Parser Stmt} {declaration : Parser (Option Decl)}
  (he : Reads expression fun room _ _ _ => Holds room 1)
  (hs : Reads statement StmtFits)
  (hd : Reads declaration fun room us d vs => ∃ decl, d = some decl ∧ DeclFits room us decl vs)

section

include hd

theorem fits_declarationsFrom (closes : Option Token.Kind → Bool) (n : Nat) :
    Reads (declarationsFrom declaration closes n) DeclsFit := by
  induction n with
  | zero =>
      refine (Reads.pure []).mono ?_
      rintro room us ds vs ⟨rfl, rfl⟩
      exact .zero
  | succ n ih =>
      unfold declarationsFrom
      refine Reads.peek_bind fun kind => ?_
      split
      · refine (Reads.pure []).mono ?_
        rintro room us ds vs ⟨rfl, rfl⟩ _
        exact .zero
      · refine (hd.bind fun first => ih.bind fun others => Reads.pure _).mono ?_
        rintro room us ds vs ⟨_, _, ⟨decl, rfl, hfirst⟩, others, _, hothers, rfl, rfl⟩ _
        show Holds room (Decl.aroundAll 0 none (decl :: others))
        unfold Decl.aroundAll
        exact .max hfirst hothers

theorem fits_body : Reads (body declaration) DeclsFit := by
  refine (Reads.remaining.bind fun n => (fits_declarationsFrom hd closesBody n).bind fun decls =>
    (Reads.expect_terminal _ _).bind fun _ => Reads.pure decls).mono ?_
  rintro room us ds vs ⟨n, _, ⟨_, rfl⟩, decls, ms, hdecls, _, _, _, rfl, rfl⟩
  exact hdecls

/-- A function opens no level, so its body has the room that the function has. -/
theorem fits_function (kind : String) (start : Location) :
    Reads (function .strict declaration kind start) FunctionFits := by
  have hrest (name : Token) (params : List Param) :=
    (Reads.expect_terminal .rightParen "')' after parameters").bind fun _ =>
      (Reads.expect_terminal .leftBrace ("'\x7b' before " ++ kind ++ " body")).bind fun _ =>
        (fits_body hd).bind fun decls => (Reads.spanFrom start).bind fun span =>
          Reads.pure (FunctionDecl.mk name.lexeme params decls span)
  have haround (f : FunctionDecl) : f.around 0 = Decl.aroundAll 0 none f.body := by
    obtain ⟨name, params, body, span⟩ := f
    cases body <;> cases params <;> simp [FunctionDecl.around, Decl.aroundAll]
  refine ((Reads.expect_name _).bind fun name => (Reads.expect_terminal _ _).bind fun _ =>
    (Reads.check _).bind fun empty =>
      Reads.ite ((Reads.pure []).bind (hrest name)) (Reads.parameters.bind (hrest name))).mono ?_
  rintro room us f vs ⟨name, _, _, _, _, _, _, _, rfl,
    ⟨_, _, _, hrest⟩ | ⟨params, _, _, hrest⟩⟩
  all_goals
    obtain ⟨_, _, _, _, _, _, decls, _, hdecls, _, _, rfl, rfl, rfl⟩ := hrest
    show Holds room (FunctionDecl.around 0 _)
    rw [haround]
    exact hdecls

theorem fits_methodsFrom (n : Nat) :
    Reads (methodsFrom (function .strict declaration "method") n) fun room _ fs _ =>
      Holds room (FunctionDecl.aroundAll 0 fs) := by
  induction n with
  | zero =>
      refine (Reads.pure []).mono ?_
      rintro room us fs vs ⟨rfl, rfl⟩
      exact .zero
  | succ n ih =>
      unfold methodsFrom
      refine Reads.peek_bind fun kind => ?_
      split
      · refine (Reads.pure []).mono ?_
        rintro room us fs vs ⟨rfl, rfl⟩ _
        exact .zero
      · refine (Reads.here.bind fun start => (fits_function hd "method" start).bind fun first =>
          ih.bind fun others => Reads.pure _).mono ?_
        rintro room us fs vs ⟨_, _, rfl, first, ms, hfirst, others, _, hothers, rfl, rfl⟩ _
        unfold FunctionDecl.aroundAll
        exact .max hfirst hothers

/-- A class opens no level either. -/
theorem fits_classDeclaration (start : Location) :
    Reads (classDeclaration .strict declaration start) DeclFits := by
  refine ((Reads.expect_name _).bind fun name => Reads.superclassClause.bind fun superclass =>
    (Reads.expect_terminal _ _).bind fun _ => Reads.remaining.bind fun n =>
      (fits_methodsFrom hd n).bind fun methods => (Reads.expect_terminal _ _).bind fun _ =>
        (Reads.spanFrom start).bind fun _ => Reads.pure _).mono ?_
  rintro room us d vs ⟨name, _, _, superclass, _, _, _, _, _, n, _, _, methods, _, hmethods, _, _,
    _, _, _, _, rfl, _⟩
  refine Holds.mono hmethods ?_
  cases methods <;> cases superclass <;> simp [Decl.around]

end

section

include he

theorem fits_varDeclaration (start : Location) :
    Reads (varDeclaration expression start) DeclFits := by
  have hrest (name : Token) (initial : Option Expr) :=
    (Reads.expect_terminal .semicolon "';' after variable declaration").bind fun _ =>
      (Reads.spanFrom start).bind fun span => Reads.pure (Decl.var name.lexeme initial span)
  refine ((Reads.expect_name _).bind fun name => Reads.accept_bind
    ((Reads.map some he).bind (hrest name)) ((Reads.pure none).bind (hrest name))).mono ?_
  rintro room us d vs ⟨name, _, _, ⟨_, _, _, _, ⟨e, rfl, he⟩, hrest⟩ | ⟨_, _, _, ⟨rfl, rfl⟩, hrest⟩⟩
  · obtain ⟨_, _, _, _, _, _, rfl, _⟩ := hrest
    exact he
  · obtain ⟨_, _, _, _, _, _, rfl, _⟩ := hrest
    exact .zero

theorem fits_expressionStatement : Reads (expressionStatement expression) StmtFits := by
  refine (Reads.here.bind fun start => he.bind fun value => (Reads.expect_terminal _ _).bind fun _ =>
    (Reads.spanFrom start).bind fun _ => Reads.pure _).mono ?_
  rintro room us s vs ⟨_, _, rfl, value, _, hvalue, _, _, _, _, _, _, rfl, _⟩
  exact hvalue

theorem fits_printStatement (start : Location) :
    Reads (printStatement expression start) StmtFits := by
  refine (he.bind fun value => (Reads.expect_terminal _ _).bind fun _ =>
    (Reads.spanFrom start).bind fun _ => Reads.pure _).mono ?_
  rintro room us s vs ⟨value, _, hvalue, _, _, _, _, _, _, rfl, _⟩
  exact hvalue

theorem fits_optionalBefore (kind : Token.Kind) : Reads (optionalBefore kind expression)
    fun room _ e _ => e.isSome → Holds room 1 := by
  refine ((Reads.check kind).bind fun absent =>
    Reads.ite (Reads.pure none) (Reads.map some he)).mono ?_
  rintro room us e vs ⟨_, _, _, ⟨rfl, _⟩ | ⟨e, rfl, he⟩⟩ hsome
  · exact nomatch hsome
  · exact he

theorem fits_returnStatement (start : Location) :
    Reads (returnStatement expression start) StmtFits := by
  refine ((fits_optionalBefore he .semicolon).bind fun value =>
    (Reads.expect_terminal _ _).bind fun _ =>
      (Reads.spanFrom start).bind fun _ => Reads.pure _).mono ?_
  rintro room us s vs ⟨value, _, hvalue, _, _, _, _, _, _, rfl, _⟩
  cases value with
  | none => exact .zero
  | some e => exact hvalue rfl

theorem fits_forInitializer : Reads (forInitializer expression) fun room _ initial _ =>
    Holds room (Decl.aroundAll 0 none initial.toList) := by
  have hone {room : Room} {d : Decl} (h : Holds room (d.around 0 none)) :
      Holds room (Decl.aroundAll 0 none [d]) := by
    unfold Decl.aroundAll
    exact .max h .zero
  refine (Reads.here.bind fun start => Reads.peek_bind
    (R := fun room _ initial _ => Holds room (Decl.aroundAll 0 none initial.toList))
    fun kind => ?_).mono ?_
  · split
    · refine (Reads.advance_bind (Reads.pure none) .semicolon).mono ?_
      intro room us initial vs hread hkind
      obtain ⟨ms, _, rfl, rfl⟩ := hread hkind
      exact .zero
    · refine (Reads.advance_bind (Reads.map some (fits_varDeclaration he start)) .var).mono ?_
      intro room us initial vs hread hkind
      obtain ⟨ms, _, d, rfl, hd⟩ := hread hkind
      exact hone hd
    · refine (Reads.map _ (fits_expressionStatement he)).mono ?_
      rintro room us initial vs ⟨s, rfl, hs⟩ _
      refine hone ?_
      simp only [Decl.around]
      exact hs
  · rintro room us initial vs ⟨_, _, rfl, hread⟩
    exact hread

end

/-! Every statement is read one level below the room it is given, so what its parts need may be one
more. -/

/-- The parts of a statement fit in a room to which it adds itself. -/
def PartsFit : Reading Stmt := fun inner _ s _ =>
  ∃ k, Holds inner k ∧ s.around 0 none ≤ 1 + k

theorem partsFit_of_fits {p : Parser Stmt} (h : Reads p StmtFits) : Reads p PartsFit :=
  h.mono fun _ _ _ _ hfits => ⟨_, hfits, Nat.le_add_left _ _⟩

theorem partsFit_leaf {inner : Room} {us vs : List Token} {s : Stmt}
    (h : s.around 0 none ≤ 1) : PartsFit inner us s vs := ⟨0, .zero, h⟩

include hd in
theorem fits_blockStatement (start : Location) :
    Reads (blockStatement declaration start) PartsFit := by
  refine ((fits_body hd).bind fun decls => (Reads.spanFrom start).bind fun _ =>
    Reads.pure _).mono ?_
  rintro inner us s vs ⟨decls, _, hdecls, _, _, _, rfl, _⟩
  exact ⟨_, hdecls, Stmt.around_block_le 0 none decls _⟩

theorem fits_breakStatement (start : Location) : Reads (breakStatement start) PartsFit := by
  refine ((Reads.expect_terminal _ _).bind fun _ => (Reads.spanFrom start).bind fun _ =>
    Reads.pure _).mono ?_
  rintro inner us s vs ⟨_, _, _, _, _, _, rfl, _⟩
  exact partsFit_leaf (Nat.zero_le 1)

theorem fits_continueStatement (start : Location) : Reads (continueStatement start) PartsFit := by
  refine ((Reads.expect_terminal _ _).bind fun _ => (Reads.spanFrom start).bind fun _ =>
    Reads.pure _).mono ?_
  rintro inner us s vs ⟨_, _, _, _, _, _, rfl, _⟩
  exact partsFit_leaf (Nat.zero_le 1)

section

include he hs

theorem fits_ifStatement (start : Location) :
    Reads (ifStatement expression statement start) PartsFit := by
  have hrest (condition : Expr) (thenBranch : Stmt) (elseBranch : Option Stmt) :=
    (Reads.spanFrom start).bind fun span =>
      Reads.pure (Stmt.ifThenElse condition thenBranch elseBranch span)
  refine ((Reads.expect_terminal _ _).bind fun _ => he.bind fun condition =>
    (Reads.expect_terminal _ _).bind fun _ => hs.bind fun thenBranch =>
      Reads.accept_bind ((Reads.map some hs).bind (hrest condition thenBranch))
        ((Reads.pure none).bind (hrest condition thenBranch))).mono ?_
  rintro inner us s vs ⟨_, _, _, condition, _, _, _, _, _, thenBranch, _, hthen,
    ⟨_, _, _, _, ⟨elseBranch, rfl, helse⟩, _, _, _, rfl, _⟩ |
      ⟨_, _, _, ⟨rfl, rfl⟩, _, _, _, rfl, _⟩⟩
  · refine ⟨_, .max hthen helse, Nat.le_of_eq ?_⟩
    simp only [Stmt.around]
  · refine ⟨_, hthen, Nat.le_of_eq ?_⟩
    simp only [Stmt.around]

theorem fits_whileStatement (start : Location) :
    Reads (whileStatement expression statement start) PartsFit := by
  refine ((Reads.expect_terminal _ _).bind fun _ => he.bind fun condition =>
    (Reads.expect_terminal _ _).bind fun _ => hs.bind fun loopBody =>
      (Reads.spanFrom start).bind fun _ => Reads.pure _).mono ?_
  rintro inner us s vs ⟨_, _, _, condition, _, _, _, _, _, loopBody, _, hbody, _, _, _, rfl, _⟩
  refine ⟨_, hbody, Nat.le_of_eq ?_⟩
  simp [Stmt.around]

theorem fits_forStatement (start : Location) :
    Reads (forStatement expression statement start) PartsFit := by
  refine ((Reads.expect_terminal _ _).bind fun _ => (fits_forInitializer he).bind fun initial =>
    (fits_optionalBefore he .semicolon).bind fun condition =>
      (Reads.expect_terminal _ _).bind fun _ =>
        (fits_optionalBefore he .rightParen).bind fun increment =>
          (Reads.expect_terminal _ _).bind fun _ => hs.bind fun loopBody =>
            (Reads.spanFrom start).bind fun _ => Reads.pure _).mono ?_
  rintro inner us s vs ⟨_, _, _, initial, _, hinitial, condition, _, _, _, _, _, increment, _, _, _,
    _, _, loopBody, _, hbody, _, _, _, rfl, _⟩
  exact ⟨_, .max hinitial hbody, around_forBlock 0 none initial condition increment loopBody _⟩

end

include he hs hd

theorem fits_statementWith :
    Reads (statementWith expression statement declaration) PartsFit := by
  -- A statement that begins with a word of its own.
  have hword {p : Parser Stmt} (h : Reads p PartsFit) (kind : Token.Kind) :
      Reads (advance >>= fun _ => p) fun inner us s vs => us.head?.map (·.kind) = some kind →
        PartsFit inner us s vs := by
    refine (Reads.advance_bind h kind).mono ?_
    intro inner us s vs hread hkind
    obtain ⟨ms, _, hparts⟩ := hread hkind
    exact hparts
  refine (Reads.here.bind fun start => Reads.peek_bind (R := PartsFit) fun kind => ?_).mono ?_
  · split
    · exact hword (partsFit_of_fits (fits_printStatement he start)) .print
    · exact hword (fits_blockStatement hd start) .leftBrace
    · exact hword (fits_ifStatement he hs start) .if
    · exact hword (fits_whileStatement he hs start) .while
    · exact hword (fits_forStatement he hs start) .for
    · exact hword (partsFit_of_fits (fits_returnStatement he start)) .return
    · exact hword (fits_breakStatement start) .break
    · exact hword (fits_continueStatement start) .continue
    · exact (partsFit_of_fits (fits_expressionStatement he)).mono fun _ _ _ _ h _ => h
  · rintro inner us s vs ⟨_, _, rfl, hread⟩
    exact hread

theorem fits_declarationWith :
    Reads (declarationWith .strict expression statement declaration) DeclFits := by
  refine (Reads.here.bind fun start => Reads.peek_bind (R := DeclFits) fun kind => ?_).mono ?_
  · split
    · refine (Reads.advance_bind (fits_classDeclaration hd start) .class).mono ?_
      intro room us d vs hread hkind
      obtain ⟨ms, _, hclass⟩ := hread hkind
      exact hclass
    · refine (Reads.advance_bind (Reads.map Decl.function (fits_function hd "function" start))
        .fun).mono ?_
      intro room us d vs hread hkind
      obtain ⟨ms, _, f, rfl, hf⟩ := hread hkind
      show Holds room ((Decl.function f).around 0 none)
      simp only [Decl.around]
      exact hf
    · refine (Reads.advance_bind (fits_varDeclaration he start) .var).mono ?_
      intro room us d vs hread hkind
      obtain ⟨ms, _, hvar⟩ := hread hkind
      exact hvar
    · refine (Reads.map Decl.stmt hs).mono ?_
      rintro room us d vs ⟨s, rfl, hs⟩ _
      show Holds room ((Decl.stmt s).around 0 none)
      simp only [Decl.around]
      exact hs
  · rintro room us d vs ⟨_, _, rfl, hread⟩
    exact hread

end Productions

/-- Statements and declarations, at any bound on the recursion. -/
theorem fits_statement_declaration (n : Nat) :
    Reads (statement .strict n) StmtFits ∧
      Reads (declaration .strict n) (fun room us d vs =>
        ∃ decl, d = some decl ∧ DeclFits room us decl vs) := by
  induction n with
  | zero => exact ⟨Reads.fail _ _, Reads.fail _ _⟩
  | succ n ih =>
      obtain ⟨hstatement, hdeclaration⟩ := ih
      have hexpression : Reads (assignment .strict n) fun room _ _ _ => Holds room 1 :=
        (Reads.assignment_unary n).1.mono fun _ _ _ _ => Holds.of_assignment
      constructor
      · refine (Reads.nested (fits_statementWith hexpression hstatement hdeclaration)).mono ?_
        rintro room us s vs ⟨inner, hopens, k, hk, hle⟩
        exact Holds.mono (.level hopens hk) hle
      · exact Reads.recovered (fits_declarationWith hexpression hstatement hdeclaration)

/-- **Functions and classes aside, the levels are enough.** -/
theorem around_program {source : List Char} {p : Program} (h : Program.parse source = .ok p) :
    p.around 0 ≤ maxNesting := by
  obtain ⟨_, c, hprogram⟩ := (parse_ok_iff source p).1 h
  have hreads : Reads (program .strict) fun room _ p _ => Holds room (p.around 0) := by
    refine (Reads.here.bind fun start => Reads.remaining.bind fun n =>
      (fits_declarationsFrom (fits_statement_declaration _).2 _ n).bind fun decls =>
        Reads.here.bind fun stop => Reads.pure _).mono ?_
    rintro room us p vs ⟨_, _, _, n, _, _, decls, _, hdecls, _, _, _, rfl, _⟩
    exact hdecls
  exact (hreads _ _ _ hprogram).2

/-! ## Functions in functions -/

/-- The source text of `n` functions, each one in the body of the one before. -/
def nestedFunctions : Nat → List Char
  | 0 => []
  | n + 1 => "fun f()\x7b".toList ++ nestedFunctions n ++ ['\x7d']

/-- Declarations that are `n` functions, each one in the body of the one before. -/
inductive FunctionsNested : Nat → List Decl → Prop
  | empty : FunctionsNested 0 []
  | function {n : Nat} {name : String} {body : List Decl} {span : Span} :
      FunctionsNested n body → FunctionsNested (n + 1) [.function ⟨name, [], body, span⟩]

theorem aroundAll_function (weight : Nat) (name : String) (body : List Decl) (span : Span) :
    Decl.aroundAll weight none [.function ⟨name, [], body, span⟩] =
      if body.isEmpty then 0 else weight + Decl.aroundAll weight none body := by
  cases body <;> simp [Decl.aroundAll, Decl.around, FunctionDecl.around]

/-- The innermost function has nothing in it, and all others are around it. -/
theorem FunctionsNested.around {n : Nat} {ds : List Decl} (h : FunctionsNested n ds)
    (weight : Nat) : Decl.aroundAll weight none ds = (n - 1) * weight := by
  induction h with
  | empty => exact (Nat.zero_mul weight).symm
  | @function n name body span hbody ih =>
      rw [aroundAll_function, Nat.add_sub_cancel]
      cases n with
      | zero =>
          cases hbody
          exact (Nat.zero_mul weight).symm
      | succ n =>
          rw [Nat.add_sub_cancel] at ih
          cases hbody
          rw [List.isEmpty_cons, if_neg Bool.false_ne_true, ih, Nat.succ_mul, Nat.add_comm]

theorem FunctionsNested.of_bare {n : Nat} {ds : List Decl}
    (h : FunctionsNested n (Decl.bareAll ds)) : FunctionsNested n ds := by
  induction n generalizing ds with
  | zero =>
      cases ds with
      | nil => exact .empty
      | cons d ds => exact nomatch h
  | succ n ih =>
      cases ds with
      | nil => exact nomatch h
      | cons d ds =>
          generalize hbare : Decl.bareAll (d :: ds) = bareDecls at h
          cases h with
          | function hbody =>
              unfold Decl.bareAll at hbare
              injection hbare with hd hds
              cases ds with
              | cons d ds => exact nomatch hds
              | nil =>
                  cases d with
                  | function f =>
                      obtain ⟨name, params, body, span⟩ := f
                      simp only [Decl.bare, FunctionDecl.bare, Decl.function.injEq,
                        FunctionDecl.mk.injEq, List.map_eq_nil_iff] at hd
                      obtain ⟨_, rfl, rfl, _⟩ := hd
                      exact .function (ih hbody)
                  | var | «class» | stmt => exact nomatch hd

/-- The pieces of `nestedFunctions`. -/
def nestedPieces : Nat → List Piece
  | 0 => []
  | n + 1 =>
    [⟨.token .fun, "fun".toList⟩, ⟨.blank, [' ']⟩, ⟨.token .identifier, ['f']⟩,
      ⟨.token .leftParen, ['(']⟩, ⟨.token .rightParen, [')']⟩, ⟨.token .leftBrace, ['\x7b']⟩] ++
      nestedPieces n ++ [⟨.token .rightBrace, ['\x7d']⟩]

theorem pieces_function (rest : List Char) :
    Piece.pieces ("fun f()\x7b".toList ++ rest) =
      [⟨.token .fun, "fun".toList⟩, ⟨.blank, [' ']⟩, ⟨.token .identifier, ['f']⟩,
        ⟨.token .leftParen, ['(']⟩, ⟨.token .rightParen, [')']⟩,
        ⟨.token .leftBrace, ['\x7b']⟩] ++ Piece.pieces rest := by
  have hword : Piece.pieces ("fun f()\x7b".toList ++ rest) =
      ⟨.token .fun, "fun".toList⟩ :: Piece.pieces (" f()\x7b".toList ++ rest) :=
    Piece.pieces_of_munch rfl
  have hblank : Piece.pieces (" f()\x7b".toList ++ rest) =
      ⟨.blank, [' ']⟩ :: Piece.pieces ("f()\x7b".toList ++ rest) := Piece.pieces_of_munch rfl
  have hname : Piece.pieces ("f()\x7b".toList ++ rest) =
      ⟨.token .identifier, ['f']⟩ :: Piece.pieces ("()\x7b".toList ++ rest) :=
    Piece.pieces_of_munch rfl
  have hopen : Piece.pieces ("()\x7b".toList ++ rest) =
      ⟨.token .leftParen, ['(']⟩ :: Piece.pieces (")\x7b".toList ++ rest) :=
    Piece.pieces_of_munch rfl
  have hclose : Piece.pieces (")\x7b".toList ++ rest) =
      ⟨.token .rightParen, [')']⟩ :: Piece.pieces ("\x7b".toList ++ rest) :=
    Piece.pieces_of_munch rfl
  have hbrace : Piece.pieces ("\x7b".toList ++ rest) =
      ⟨.token .leftBrace, ['\x7b']⟩ :: Piece.pieces rest :=
    Piece.pieces_of_munch (by cases rest <;> rfl)
  rw [hword, hblank, hname, hopen, hclose, hbrace]
  rfl

theorem pieces_nestedFunctions (n : Nat) (rest : List Char) :
    Piece.pieces (nestedFunctions n ++ rest) = nestedPieces n ++ Piece.pieces rest := by
  induction n generalizing rest with
  | zero => rfl
  | succ n ih =>
      have hbrace : Piece.pieces ('\x7d' :: rest) =
          ⟨.token .rightBrace, ['\x7d']⟩ :: Piece.pieces rest :=
        Piece.pieces_of_munch (by cases rest <;> rfl)
      unfold nestedFunctions nestedPieces
      rw [List.append_assoc, List.append_assoc, pieces_function, ih, List.append_assoc,
        List.append_assoc]
      exact congrArg _ (congrArg _ hbrace)

theorem sound_nestedPieces (n : Nat) : ∀ p ∈ nestedPieces n, p.Sound := by
  induction n with
  | zero => exact List.forall_mem_nil _
  | succ n ih =>
      intro p hp
      unfold nestedPieces at hp
      simp only [List.mem_append, List.mem_cons, List.not_mem_nil, or_false] at hp
      rcases hp with ((rfl | rfl | rfl | rfl | rfl | rfl) | hp) | rfl
      case inl.inr => exact ih p hp
      all_goals
        intro flaw hflaw
        cases hflaw

/-- The tokens of nested functions derive them in any room: no rule on the way opens a level. -/
theorem derives_nestedFunctions (n : Nat) (room : Room) (us : List Token)
    (kinds : List Token.Kind)
    (hkinds : us.map (·.kind) = (nestedPieces n).filterMap Piece.kind? ++ kinds) :
    ∃ ds vs, Declarations True room us ds vs ∧ vs.map (·.kind) = kinds ∧
      FunctionsNested n ds := by
  induction n generalizing us kinds with
  | zero => exact ⟨[], us, .nil, hkinds, .empty⟩
  | succ n ih =>
      unfold nestedPieces at hkinds
      rw [List.filterMap_append, List.filterMap_append, List.append_assoc,
        List.append_assoc] at hkinds
      change us.map (·.kind) = .fun :: .identifier :: .leftParen :: .rightParen :: .leftBrace ::
        ((nestedPieces n).filterMap Piece.kind? ++ (.rightBrace :: kinds)) at hkinds
      obtain ⟨word, us, rfl, hword, hkinds⟩ := List.map_eq_cons_iff.1 hkinds
      obtain ⟨name, us, rfl, hname, hkinds⟩ := List.map_eq_cons_iff.1 hkinds
      obtain ⟨opening, us, rfl, hopening, hkinds⟩ := List.map_eq_cons_iff.1 hkinds
      obtain ⟨closing, us, rfl, hclosing, hkinds⟩ := List.map_eq_cons_iff.1 hkinds
      obtain ⟨brace, us, rfl, hbrace, hkinds⟩ := List.map_eq_cons_iff.1 hkinds
      obtain ⟨ds, vs, hbody, hvs, hnested⟩ := ih us _ hkinds
      obtain ⟨last, vs, rfl, hlast, hvs⟩ := List.map_eq_cons_iff.1 hvs
      have hfunction : Function True room (name :: opening :: closing :: brace :: us)
          ⟨name.lexeme, [], ds, bare⟩ vs :=
        .intro (.intro hname) (.intro hopening) .none (.intro hclosing) (.intro hbrace) hbody
          (.intro hlast)
      exact ⟨_, vs, .cons (.function (.intro hword) hfunction) .nil, hvs, .function hnested⟩

/-- **Functions nest without limit.** -/
theorem parse_nestedFunctions (n : Nat) :
    ∃ p, Program.parse (nestedFunctions n) = .ok p ∧ FunctionsNested n p.body := by
  have hpieces : Piece.pieces (nestedFunctions n) = nestedPieces n := by
    have h := pieces_nestedFunctions n []
    rwa [List.append_nil, Piece.pieces_nil, List.append_nil] at h
  have hkinds : (scan (nestedFunctions n)).tokens.map (·.kind) =
      (nestedPieces n).filterMap Piece.kind? ++ [] := by
    rw [map_kind_tokens, hpieces, List.append_nil]
  have hlexical : (scan (nestedFunctions n)).errors = [] := by
    rw [scan_errors_eq_nil_iff, hpieces]
    exact sound_nestedPieces n
  obtain ⟨ds, vs, hderives, hvs, hnested⟩ :=
    derives_nestedFunctions n (.levels maxNesting) _ _ hkinds
  cases List.map_eq_nil_iff.1 hvs
  obtain ⟨p, c, hprogram, hbody, _⟩ :=
    accepts_program hderives (Cursor.ofScan (scan (nestedFunctions n))) rfl rfl
  exact ⟨p, (parse_ok_iff _ p).2 ⟨hlexical, c, hprogram⟩, .of_bare (hbody ▸ hnested)⟩

/-! ## What the limit bounds -/

/-- **The limit passes functions and classes by.** When they are not counted, no node of an accepted
program lies inside more than 200 statements, so a program keeps to the limit unless functions and
classes lead beyond it; and a source text that the grammar without limits derives is accepted with the
tree of its derivation, or rejected because it is nested too deeply. When functions are counted nothing
bounds what is accepted: `n` functions in each other put the last one inside all others. -/
theorem nesting_passes_functions (source : List Char) :
    (∀ p, Program.parse source = .ok p →
        p.around 0 ≤ 200 ∧ p.around 1 ≤ 200 + p.functionsAround) ∧
      (∀ body, (scan source).errors = [] →
        Declarations True .unlimited (scan source).tokens body [] →
          (∃ p, Program.parse source = .ok p ∧ Decl.bareAll p.body = body) ∨
            ∃ e, Program.parse source = .error (.syntactic e) ∧ e.cause = .tooNested) ∧
      ∀ n : Nat, ∃ p, Program.parse (nestedFunctions n) = .ok p ∧ p.around 1 = n - 1 := by
  refine ⟨fun p hparse => ?_, ?_, ?_⟩
  · have hlevels : p.around 0 ≤ 200 := around_program hparse
    have hfunctions : p.around 1 ≤ p.around 0 + p.functionsAround := Decl.aroundAll_one_le none p.body
    exact ⟨hlevels, by omega⟩
  · intro body hlexical hderives
    rcases program_ok_or_tooNested hderives (Cursor.ofScan (scan source)) rfl with
      ⟨p, c, hprogram, hbody⟩ | ⟨e, c, hprogram, hcause⟩
    · exact .inl ⟨p, (parse_ok_iff source p).2 ⟨hlexical, c, hprogram⟩, hbody⟩
    · refine .inr ⟨e, ?_, hcause⟩
      unfold Program.parse scan?
      rw [hlexical]
      dsimp only
      rw [hprogram]
  · intro n
    obtain ⟨p, hparse, hnested⟩ := parse_nestedFunctions n
    refine ⟨p, hparse, ?_⟩
    unfold Program.around
    rw [hnested.around, Nat.mul_one]

/-- Two functions: one lies inside the other when functions are counted, and the bound holds. -/
theorem around_two_functions :
    ∃ p, Program.parse (nestedFunctions 2) = .ok p ∧ p.around 0 ≤ 200 ∧ p.around 1 = 1 := by
  obtain ⟨hbounds, -, hnested⟩ := nesting_passes_functions (nestedFunctions 2)
  obtain ⟨p, hparse, haround⟩ := hnested 2
  exact ⟨p, hparse, (hbounds p hparse).1, haround⟩

/-- 202 functions in each other are accepted, and the last one lies inside 201. -/
theorem deep_functions_accepted :
    ∃ p, Program.parse (nestedFunctions 202) = .ok p ∧ 200 < p.around 1 := by
  obtain ⟨p, hparse, hnested⟩ := parse_nestedFunctions 202
  refine ⟨p, hparse, ?_⟩
  unfold Program.around
  rw [hnested.around]
  decide

-- Blocks are counted: the level of the 201st one is not there to be opened.
example : (match Program.parse (List.replicate 201 '\x7b' ++ List.replicate 201 '\x7d') with
    | .error (.syntactic e) => e.cause == .tooNested
    | _ => false) = true := by decide +kernel

end Parsing

end Lox
