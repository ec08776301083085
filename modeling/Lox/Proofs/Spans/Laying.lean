import Lox.Proofs.Parsing.Grammar
import Lox.Proofs.Resolution.Positions
import Lox.Parsing.Expression
import Mathlib.Tactic.Choose

/-!
# Trees on their tokens

A node is laid on a run of tokens when its span goes from the start of the first one to the end of the
last one, and its children are laid on runs inside. This is said of each node and what is directly
below it; what is further below follows along the way that leads there.

Two nodes have no tokens of their own: the block and the loop that stand for a `for` are laid on all of
it, and so is the condition of a `for` that has none.

## Contents
- `spanOf`, `paramsOf`, `exprOf?`: what there is to say of a node.
- `Covers`: a span and the tokens under it.
- `Supplied`: a condition that nobody wrote.
- `Derives`: the tokens of an expression.
- `Laid`, `Laid.at?`: trees on tokens, and the nodes in them.
- `Stands`, `Laid.binary` and the others: one lemma for each kind of node.
-/

namespace Lox.Spans

open Resolving Grammar Parsing

/-! ## Nodes -/

/-- The source that a node was read from. -/
def spanOf : Subtree → Span
  | .program p => p.span
  | .decl d => d.span
  | .stmt s => s.span
  | .method f => f.span
  | .superclass _ use => use.span
  | .expr e => e.span

/-- The parameters of a function or a method. -/
def paramsOf : Subtree → List Param
  | .decl (.function f) => f.params
  | .method f => f.params
  | _ => []

/-- The expression that a node is; the superclass of a class is a variable. -/
def exprOf? : Subtree → Option Expr
  | .superclass _ use => some (.variable use)
  | .expr e => some e
  | _ => none

/-- The condition `e` of the loop `t` was supplied, as it is for a `for` without one: it is true, and its
span is that of the whole loop. A condition that is written comes behind a keyword, so its span is a
smaller one. -/
def Supplied (t : Subtree) (e : Expr) : Prop :=
  ∃ body increment span, t = .stmt (.whileLoop e body increment span) ∧
    e = .literal (.bool true) span

theorem Supplied.span_eq {t : Subtree} {e : Expr} (h : Supplied t e) : e.span = spanOf t := by
  obtain ⟨body, increment, span, rfl, rfl⟩ := h
  rfl

/-! ## Runs of tokens -/

/-- The span from the start of the first token to the end of the last one. -/
def Covers (ts : List Token) (span : Span) : Prop :=
  ∃ first last, ts.head? = some first ∧ ts.getLast? = some last ∧
    span = ⟨first.span.start, last.span.stop⟩

/-- The tokens are those of an expression, whatever follows them. -/
def Derives (ts : List Token) (e : Expr) : Prop :=
  ∀ vs, Assignment (.levels maxNesting) (ts ++ vs) e.bare vs

/-- A node is laid on a run of tokens: its span covers them, and its parameters and its children are laid
on runs inside. The tokens of a child that is an expression are those of the expression, unless it was
supplied. -/
inductive Laid : List Token → Subtree → Prop
  /-- The function `run` gives the tokens of each child. -/
  | intro {ts : List Token} {t : Subtree} (run : Nat → List Token) (covers : Covers ts (spanOf t))
    (params : ∀ p ∈ paramsOf t, ∃ us, us <:+: ts ∧ Covers us p.span)
    (inside : ∀ i inner c, t.child? i = some (inner, c) → run i <:+: ts)
    (children : ∀ i inner c, t.child? i = some (inner, c) → Laid (run i) c)
    (derives : ∀ i inner c, t.child? i = some (inner, c) →
      ∀ e, exprOf? c = some e → ¬Supplied t e → Derives (run i) e) :
    Laid ts t

/-- The node `c` has its place below the node `t`, which is laid on `ts`. -/
def Below (ts : List Token) (t c : Subtree) : Prop :=
  ∃ us, us <:+: ts ∧ Laid us c ∧ ∀ e, exprOf? c = some e → ¬Supplied t e → Derives us e

/-- An expression on its tokens. -/
structure Stands (ts : List Token) (e : Expr) : Prop where
  laid : Laid ts (.expr e)
  derives : Derives ts e

/-- Each item stands on a run of tokens inside. -/
def Among {α : Type} (P : List Token → α → Prop) (ts : List Token) (as : List α) : Prop :=
  ∀ a ∈ as, ∃ us, us <:+: ts ∧ P us a

/-! ## Covered spans -/

namespace Covers

variable {ts us ms vs : List Token} {span span' : Span} {t t' : Token}

theorem single (t : Token) : Covers [t] t.span := ⟨t, t, rfl, rfl, rfl⟩

theorem between (t t' : Token) (ms : List Token) :
    Covers (t :: ms ++ [t']) ⟨t.span.start, t'.span.stop⟩ :=
  ⟨t, t', rfl, List.getLast?_concat, rfl⟩

/-- From the start of one run to the end of a later one. -/
theorem joined (h : Covers us span) (h' : Covers vs span') (ms : List Token) :
    Covers (us ++ (ms ++ vs)) ⟨span.start, span'.stop⟩ := by
  obtain ⟨first, _, hfirst, _, rfl⟩ := h
  obtain ⟨_, last, _, hlast, rfl⟩ := h'
  refine ⟨first, last, ?_, ?_, rfl⟩
  · rw [List.head?_append, hfirst]
    rfl
  · rw [List.getLast?_append, List.getLast?_append, hlast]
    rfl

/-- From the start of the first token to the end of the one passed last. -/
theorem of_last (hfirst : ts.head? = some t) {last? : Option Token} (hlast : ts.getLast? = last?)
    (hspan : ∀ last, last? = some last → span = ⟨t.span.start, last.span.stop⟩) :
    Covers ts span := by
  obtain ⟨us, rfl⟩ := List.head?_eq_some_iff.1 hfirst
  rw [List.getLast?_cons] at hlast
  exact ⟨t, _, rfl, List.getLast?_cons, hspan _ hlast.symm⟩

/-- From the start of a run to the end of a later token. -/
theorem concat (h : Covers us span) (ms : List Token) (t : Token) :
    Covers (us ++ (ms ++ [t])) ⟨span.start, t.span.stop⟩ := h.joined (single t) ms

end Covers

namespace Among

variable {α : Type} {P : List Token → α → Prop} {ts us : List Token} {a : α} {as : List α}

theorem nil (P : List Token → α → Prop) (ts : List Token) : Among P ts [] :=
  fun _ ha => absurd ha List.not_mem_nil

theorem mono (h : Among P us as) (hin : us <:+: ts) : Among P ts as := by
  intro a ha
  obtain ⟨ms, hms, hP⟩ := h a ha
  exact ⟨ms, hms.trans hin, hP⟩

theorem cons (h : P us a) (hin : us <:+: ts) (hrest : Among P ts as) : Among P ts (a :: as) := by
  intro b hb
  rcases List.mem_cons.1 hb with rfl | hmem
  · exact ⟨us, hin, h⟩
  · exact hrest b hmem

end Among

namespace Laid

variable {ts us vs ms : List Token} {t t' : Token} {span : Span}

theorem covers {c : Subtree} (h : Laid ts c) : Covers ts (spanOf c) := by
  cases h with
  | intro _ hcovers => exact hcovers

theorem params {c : Subtree} (h : Laid ts c) :
    ∀ p ∈ paramsOf c, ∃ us, us <:+: ts ∧ Covers us p.span := by
  cases h with
  | intro _ _ hparams => exact hparams

/-- Each child is laid on a run inside. -/
theorem child {c : Subtree} (h : Laid ts c) {i : Nat} {inner : List Enclosure} {d : Subtree}
    (hchild : c.child? i = some (inner, d)) : Below ts c d := by
  cases h with
  | intro run _ _ hinside hchildren hderives =>
      exact ⟨run i, hinside i inner d hchild, hchildren i inner d hchild, hderives i inner d hchild⟩

/-- A node is laid where its children are laid inside. -/
theorem of_children {c : Subtree} (hcovers : Covers ts (spanOf c))
    (hparams : ∀ p ∈ paramsOf c, ∃ us, us <:+: ts ∧ Covers us p.span)
    (hchildren : ∀ i inner d, c.child? i = some (inner, d) → Below ts c d) : Laid ts c := by
  have hruns : ∀ i, ∃ us, ∀ inner d, c.child? i = some (inner, d) →
      us <:+: ts ∧ Laid us d ∧ ∀ e, exprOf? d = some e → ¬Supplied c e → Derives us e := by
    intro i
    cases hchild : c.child? i with
    | none => exact ⟨[], nofun⟩
    | some child =>
        obtain ⟨inner, d⟩ := child
        obtain ⟨us, hus⟩ := hchildren i inner d hchild
        refine ⟨us, fun inner' d' heq => ?_⟩
        cases heq
        exact hus
  choose run hrun using hruns
  exact .intro run hcovers hparams (fun i inner d h => (hrun i inner d h).1)
    (fun i inner d h => (hrun i inner d h).2.1) fun i inner d h => (hrun i inner d h).2.2

/-- **The node at the end of a way** is laid on a run inside. -/
theorem at? {c : Subtree} (h : Laid ts c) {way : List Nat} {around around' : List Enclosure}
    {c' : Subtree} (hat : c.at? around way = some (around', c')) :
    ∃ us, us <:+: ts ∧ Laid us c' := by
  induction way generalizing ts c around with
  | nil =>
      cases hat
      exact ⟨ts, List.infix_refl ts, h⟩
  | cons i way ih =>
      cases hchild : c.child? i with
      | none =>
          rw [Subtree.at?_cons_of_none around hchild] at hat
          exact nomatch hat
      | some child =>
          obtain ⟨inner, d⟩ := child
          rw [Subtree.at?_cons_of_child around hchild] at hat
          obtain ⟨us, hus, hlaid, _⟩ := h.child hchild
          obtain ⟨ms, hms, hlaid'⟩ := ih hlaid hat
          exact ⟨ms, hms.trans hus, hlaid'⟩

theorem inside {c d : Subtree} (h : Laid us c) (hin : us <:+: ts) (hnone : exprOf? c = none) :
    Below ts d c :=
  ⟨us, hin, h, fun e he => by rw [hnone] at he; exact nomatch he⟩

end Laid

theorem Stands.below {ts us : List Token} {e : Expr} (h : Stands us e) (hin : us <:+: ts)
    (t : Subtree) : Below ts t (.expr e) :=
  ⟨us, hin, h.laid, fun _ he _ => Option.some.inj he ▸ h.derives⟩

theorem Stands.covers {ts : List Token} {e : Expr} (h : Stands ts e) : Covers ts e.span :=
  h.laid.covers

namespace Laid

variable {ts us vs : List Token}

/-! ## Expressions -/

section Expressions

variable {e left right : Expr}

/-- An expression is laid where its operands stand inside. -/
theorem expr (hcovers : Covers ts e.span)
    (hoperands : ∀ i e', exprChild? e i = some e' → ∃ us, us <:+: ts ∧ Stands us e') :
    Laid ts (.expr e) := by
  refine of_children hcovers (fun _ hp => absurd hp List.not_mem_nil) fun i inner c hchild => ?_
  obtain ⟨e', he', hc⟩ := Option.map_eq_some_iff.1 hchild
  cases hc
  obtain ⟨us, hin, hstands⟩ := hoperands i e' he'
  exact hstands.below hin _

/-- An expression without operands. -/
theorem leaf (hcovers : Covers ts e.span) (hnone : ∀ i, exprChild? e i = none) :
    Laid ts (.expr e) :=
  expr hcovers fun i e' he' => absurd he' (by rw [hnone i]; exact nofun)

/-- An expression with one operand. -/
theorem one (hcovers : Covers ts e.span) (h : Stands us left) (hin : us <:+: ts)
    (honly : ∀ i e', exprChild? e i = some e' → e' = left) : Laid ts (.expr e) := by
  refine expr hcovers fun i e' he' => ?_
  rw [honly i e' he']
  exact ⟨us, hin, h⟩

/-- An expression with two operands. -/
theorem two (hcovers : Covers ts e.span) (hleft : Stands us left) (hin : us <:+: ts)
    (hright : Stands vs right) (hin' : vs <:+: ts)
    (honly : ∀ i e', exprChild? e i = some e' → e' = left ∨ e' = right) : Laid ts (.expr e) := by
  refine expr hcovers fun i e' he' => ?_
  rcases honly i e' he' with rfl | rfl
  · exact ⟨us, hin, hleft⟩
  · exact ⟨vs, hin', hright⟩

/-- An operator between its operands. -/
theorem binary (op : BinaryOp) (hleft : Stands us left) (t : Token) (hright : Stands vs right) :
    Laid (us ++ t :: vs) (.expr (joinBinary op left right)) := by
  refine two (hleft.covers.joined hright.covers [t]) hleft List.infix_append_left hright
    (List.infix_append_of_infix_right (List.infix_cons (List.infix_refl vs))) ?_
  rintro (_ | _ | _) e' ⟨⟩
  · exact .inl rfl
  · exact .inr rfl

theorem logical (op : LogicalOp) (hleft : Stands us left) (t : Token) (hright : Stands vs right) :
    Laid (us ++ t :: vs) (.expr (joinLogical op left right)) := by
  refine two (hleft.covers.joined hright.covers [t]) hleft List.infix_append_left hright
    (List.infix_append_of_infix_right (List.infix_cons (List.infix_refl vs))) ?_
  rintro (_ | _ | _) e' ⟨⟩
  · exact .inl rfl
  · exact .inr rfl

/-- A call of what stands in front, up to the closing parenthesis. -/
theorem call {args : List Expr} {span : Span} (hcallee : Stands us left)
    (hargs : Among Stands vs args) (hcovers : Covers (us ++ vs) span) :
    Laid (us ++ vs) (.expr (.call left args span)) := by
  refine expr hcovers ?_
  rintro (_ | i) e' he'
  · cases he'
    exact ⟨us, List.infix_append_left, hcallee⟩
  · obtain ⟨ms, hin, hstands⟩ := hargs e' (List.mem_of_getElem? he')
    exact ⟨ms, List.infix_append_of_infix_right hin, hstands⟩

end Expressions

/-! ## Statements -/

section Statements

variable {e : Expr} {s : Stmt} {span : Span}

/-- A statement with one expression. -/
theorem stmt_expr (hcovers : Covers ts s.span) (h : Stands us e) (hin : us <:+: ts)
    (honly : ∀ i inner c, stmtChild? s i = some (inner, c) → c = .expr e) : Laid ts (.stmt s) := by
  refine of_children hcovers (fun _ hp => absurd hp List.not_mem_nil) fun i inner c hchild => ?_
  rw [honly i inner c hchild]
  exact h.below hin _

/-- A statement with nothing below it. -/
theorem stmt_leaf (hcovers : Covers ts s.span) (hnone : ∀ i, stmtChild? s i = none) :
    Laid ts (.stmt s) := by
  refine of_children hcovers (fun _ hp => absurd hp List.not_mem_nil) fun i inner c hchild => ?_
  exact nomatch (hnone i).symm.trans hchild

theorem exprOf?_ofDecl (d : Decl) : exprOf? (.ofDecl d) = none := by
  cases d <;> rfl

/-- Declarations, each on a run of tokens inside. -/
theorem below_of_declChild? {body : List Decl} (hbody : Among (fun us d => Laid us (.ofDecl d)) ts body)
    {params : List Param} {i : Nat} {inner : List Enclosure} {c : Subtree}
    (hchild : declChild? params body i = some (inner, c)) (t : Subtree) : Below ts t c := by
  obtain ⟨d, hd, hc⟩ := Option.map_eq_some_iff.1 hchild
  cases hc
  obtain ⟨us, hin, hlaid⟩ := hbody d (List.mem_of_getElem? hd)
  exact hlaid.inside hin (exprOf?_ofDecl d)

theorem block {body : List Decl} (hcovers : Covers ts span)
    (hbody : Among (fun us d => Laid us (.ofDecl d)) ts body) : Laid ts (.stmt (.block body span)) :=
  of_children hcovers (fun _ hp => absurd hp List.not_mem_nil) fun _ _ _ hchild =>
    below_of_declChild? hbody hchild _

theorem ifThenElse {thenBranch : Stmt} {elseBranch : Option Stmt} (hcovers : Covers ts span)
    (hcondition : Stands us e) (hin : us <:+: ts) (hthen : Laid vs (.stmt thenBranch))
    (hin' : vs <:+: ts) (helse : ∀ s, elseBranch = some s → ∃ ms, ms <:+: ts ∧ Laid ms (.stmt s)) :
    Laid ts (.stmt (.ifThenElse e thenBranch elseBranch span)) := by
  refine of_children hcovers (fun _ hp => absurd hp List.not_mem_nil) ?_
  rintro (_ | _ | _ | i) inner c hchild
  · cases hchild
    exact hcondition.below hin _
  · cases hchild
    exact hthen.inside hin' rfl
  · cases elseBranch with
    | none => exact nomatch hchild
    | some s =>
        cases hchild
        obtain ⟨ms, hms, hlaid⟩ := helse s rfl
        exact hlaid.inside hms rfl
  · cases elseBranch <;> exact nomatch hchild

/-- A loop, whose condition may have been supplied. -/
theorem whileLoop {body : Stmt} {increment : Option Expr} (hcovers : Covers ts span)
    (hcondition : (∃ us, us <:+: ts ∧ Stands us e) ∨ e = .literal (.bool true) span)
    (hbody : Laid vs (.stmt body)) (hin : vs <:+: ts)
    (hincrement : ∀ e, increment = some e → ∃ ms, ms <:+: ts ∧ Stands ms e) :
    Laid ts (.stmt (.whileLoop e body increment span)) := by
  refine of_children hcovers (fun _ hp => absurd hp List.not_mem_nil) ?_
  rintro (_ | _ | _ | i) inner c hchild
  · cases hchild
    rcases hcondition with ⟨us, hus, hstands⟩ | rfl
    · exact hstands.below hus _
    · -- what was supplied is laid on the whole loop
      refine ⟨ts, List.infix_refl ts, leaf hcovers fun i => by cases i <;> rfl, ?_⟩
      intro e he hsupplied
      cases he
      exact absurd ⟨_, _, _, rfl, rfl⟩ hsupplied
  · cases hchild
    exact hbody.inside hin rfl
  · obtain ⟨e', he', hc⟩ := Option.map_eq_some_iff.1 hchild
    cases hc
    obtain ⟨ms, hms, hstands⟩ := hincrement e' he'
    exact hstands.below hms _
  · exact nomatch hchild

theorem «return» {value : Option Expr} (hcovers : Covers ts span)
    (hvalue : ∀ e, value = some e → ∃ ms, ms <:+: ts ∧ Stands ms e) :
    Laid ts (.stmt (.return value span)) := by
  refine of_children hcovers (fun _ hp => absurd hp List.not_mem_nil) ?_
  rintro (_ | i) inner c hchild
  · obtain ⟨e', he', hc⟩ := Option.map_eq_some_iff.1 hchild
    cases hc
    obtain ⟨ms, hms, hstands⟩ := hvalue e' he'
    exact hstands.below hms _
  · exact nomatch hchild

end Statements

/-! ## Declarations -/

section Declarations

variable {span : Span}

theorem var {name : String} {initial : Option Expr} (hcovers : Covers ts span)
    (hinitial : ∀ e, initial = some e → ∃ ms, ms <:+: ts ∧ Stands ms e) :
    Laid ts (.decl (.var name initial span)) := by
  refine of_children hcovers (fun _ hp => absurd hp List.not_mem_nil) ?_
  rintro (_ | i) inner c hchild
  · obtain ⟨e', he', hc⟩ := Option.map_eq_some_iff.1 hchild
    cases hc
    obtain ⟨ms, hms, hstands⟩ := hinitial e' he'
    exact hstands.below hms _
  · exact nomatch hchild

/-- A function, or a method. -/
theorem function {f : FunctionDecl} (hcovers : Covers ts f.span)
    (hparams : Among (fun us p => Covers us p.span) ts f.params)
    (hbody : Among (fun us d => Laid us (.ofDecl d)) ts f.body) :
    Laid ts (.decl (.function f)) ∧ Laid ts (.method f) := by
  constructor
  · refine of_children hcovers hparams fun i inner c hchild => ?_
    obtain ⟨_, hdecl, heq⟩ := Option.map_eq_some_iff.1 hchild
    cases heq
    exact below_of_declChild? hbody hdecl _
  · refine of_children hcovers hparams fun i inner c hchild => ?_
    obtain ⟨_, hdecl, heq⟩ := Option.map_eq_some_iff.1 hchild
    cases heq
    exact below_of_declChild? hbody hdecl _

theorem «class» {name : String} {superclass : Option NameUse} {methods : List FunctionDecl}
    (hcovers : Covers ts span)
    (hsuperclass : ∀ use, superclass = some use → ∃ us, us <:+: ts ∧ Stands us (.variable use))
    (hmethods : Among (fun us f => Laid us (.method f)) ts methods) :
    Laid ts (.decl (.class name superclass methods span)) := by
  refine of_children hcovers (fun _ hp => absurd hp List.not_mem_nil) ?_
  rintro (_ | i) inner c hchild
  · obtain ⟨use, huse, hc⟩ := Option.map_eq_some_iff.1 hchild
    cases hc
    obtain ⟨us, hin, hstands⟩ := hsuperclass use huse
    have hlaid : Laid us (.superclass name use) :=
      of_children hstands.covers (fun _ hp => absurd hp List.not_mem_nil) fun _ _ _ => nofun
    exact ⟨us, hin, hlaid, fun _ he _ => Option.some.inj he ▸ hstands.derives⟩
  · obtain ⟨f, hf, hc⟩ := Option.map_eq_some_iff.1 hchild
    cases hc
    obtain ⟨us, hin, hlaid⟩ := hmethods f (List.mem_of_getElem? hf)
    exact hlaid.inside hin rfl

end Declarations

end Laid

end Lox.Spans
