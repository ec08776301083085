import Lox.Proofs.Spans.Reading
import Lox.Proofs.Parsing.Soundness

/-!
# Expressions on their tokens

Each production of an expression lays the tree that it makes on the tokens that it passes. The trees on
the way count as well: what a chain of operators, or a chain of calls, has grouped so far is a node of
the tree in the end. So what is said of a chain begins with what stands in front of it.

## Contents
- `Operates`, `Calls`, `Signs`: expressions of a level on their tokens.
- `Lays.chain`, `Lays.disjunction`: operators.
- `Lays.primary`, `Lays.call`, `Lays.unaryWith`: below the operators.
- `Lays.assignment_unary`: expressions, at any bound on the recursion.
-/

namespace Lox.Spans

open Grammar Parsing Resolving

/-- An operation of some levels on its tokens, inside an assignment. -/
structure Operates (levels : List Operators) (ts : List Token) (e : Expr) : Prop where
  stands : Stands ts e
  yields : Yields (fun room us vs => Operation room levels us e.bare vs) inAssignment ts

/-- A call on its tokens, inside a unary expression. -/
structure Calls (ts : List Token) (e : Expr) : Prop where
  stands : Stands ts e
  yields : Yields (fun room us vs => Call room us e.bare vs) inUnary ts

/-- A unary expression on its tokens, inside an assignment. -/
structure Signs (ts : List Token) (e : Expr) : Prop where
  stands : Stands ts e
  yields : Yields (fun room us vs => Unary room us e.bare vs) inAssignment ts

namespace Operates

variable {level : Operators} {levels : List Operators} {us vs : List Token} {left right : Expr}

theorem operand (h : Operates levels us left) : Operates (level :: levels) us left :=
  ⟨h.stands, fun vs => .operand (h.yields vs)⟩

/-- An operator of the level joins what stands in front of it to a tighter operand. -/
theorem join {γ : Type} {operator? : Token.Kind → Option γ} {join : γ → Expr → Expr → Expr}
    {tree : γ → Infix} (himplements : Implements operator? join tree level)
    (hsuffix : level :: levels <:+ precedence)
    (hleft : Operates (level :: levels) us left) (hright : Operates levels vs right) {t : Token}
    {op : γ} (hop : operator? t.kind = some op)
    (hlaid : Laid (us ++ t :: vs) (.expr (join op left right))) :
    Operates (level :: levels) (us ++ t :: vs) (join op left right) := by
  have hyields : Yields (fun room us vs => Operation room (level :: levels) us
      (join op left right).bare vs) inAssignment (us ++ t :: vs) := by
    intro ws
    rw [himplements.bare_join, List.append_assoc]
    exact .join (hleft.yields _) ((himplements.mem_iff _ _).2 ⟨op, hop, rfl⟩) (.intro rfl)
      (hright.yields ws)
  exact ⟨⟨hlaid, derives_operation hsuffix hyields⟩, hyields⟩

end Operates

namespace Calls

variable {us vs : List Token} {e : Expr} {t t' : Token}

/-- Arguments behind what is called. -/
theorem call (h : Calls us e) (hkind : t.kind = .leftParen) {args : List Expr}
    (hargs : Among Stands vs args) {close : Token}
    (hyields : Yields (fun room us vs => ∃ ms, Arguments room us (Expr.bareAll args) ms ∧
      Terminal .rightParen ms vs) inUnary (vs ++ [close])) {span : Span}
    (hspan : span = ⟨e.span.start, close.span.stop⟩) :
    Calls (us ++ t :: (vs ++ [close])) (.call e args span) := by
  have hcalls : Yields (fun room us vs => Call room us (Expr.call e args span).bare vs) inUnary
      (us ++ t :: (vs ++ [close])) := by
    intro ws
    rw [List.append_assoc]
    obtain ⟨ms, hlist, hclose⟩ := hyields ws
    exact .call (h.yields _) (.intro hkind) hlist hclose
  have hcovers : Covers (us ++ t :: (vs ++ [close])) span := by
    rw [hspan]
    exact h.stands.covers.concat (t :: vs) close
  have hinside : vs <:+: t :: (vs ++ [close]) := List.infix_cons List.infix_append_left
  exact ⟨⟨.call h.stands (hargs.mono hinside) hcovers, derives_call hcalls⟩, hcalls⟩

/-- The name of a property behind its object. -/
theorem property (h : Calls us e) (hkind : t.kind = .dot) (hname : t'.kind = .identifier) :
    Calls (us ++ [t, t']) (.get e t'.lexeme ⟨e.span.start, t'.span.stop⟩) := by
  have hcalls : Yields (fun room us vs => Call room us
      (Expr.get e t'.lexeme ⟨e.span.start, t'.span.stop⟩).bare vs) inUnary (us ++ [t, t']) := by
    intro ws
    rw [List.append_assoc]
    exact .property (h.yields _) (.intro hkind) (.intro hname)
  refine ⟨⟨.one (h.stands.covers.concat [t] t') h.stands List.infix_append_left ?_,
    derives_call hcalls⟩, hcalls⟩
  rintro (_ | i) e' ⟨⟩
  rfl

end Calls

namespace Lays

/-! ## Operators -/

section Chain

variable {γ : Type} {operator? : Token.Kind → Option γ} {join : γ → Expr → Expr → Expr}
  {tree : γ → Infix} {level : Operators} {levels : List Operators} {operand : Parser Expr}
  (himplements : Implements operator? join tree level) (hsuffix : level :: levels <:+ precedence)
  (hjoin : ∀ op us t vs left right, Stands us left → Stands vs right →
    Laid (us ++ t :: vs) (.expr (join op left right)))
  (h : Lays 1 operand fun _ ts e => Operates levels ts e)

include himplements hsuffix hjoin h

/-- The operands read so far are a node. -/
theorem chainFrom (n : Nat) (left : Expr) :
    Lays 1 (chainFrom operator? operand join n left) fun _ ts e =>
      ∀ us, Operates (level :: levels) us left → Operates (level :: levels) (us ++ ts) e := by
  induction n generalizing left with
  | zero =>
      refine (pure left).mono ?_
      rintro prev ts e ⟨rfl, rfl⟩ us hleft
      rwa [List.append_nil]
  | succ n ih =>
      unfold Parsing.chainFrom
      refine peek_bind fun kind? => ?_
      split
      · refine (pure left _).mono ?_
        rintro prev ts e ⟨rfl, rfl⟩ us hleft
        rwa [List.append_nil]
      · rename_i op hop
        obtain ⟨kind, rfl, hop⟩ := Option.bind_eq_some_iff.1 hop
        refine (LaysAt.advance_bind (h.bind fun right => ih (join op left right))).mono ?_
        rintro prev _ e ⟨t, _, rfl, rfl, right, vs, ws, rfl, hright, hrest⟩ us hleft
        have hjoined := hleft.join himplements hsuffix hright hop
          (hjoin op us t vs left right hleft.stands hright.stands)
        have hall := hrest _ hjoined
        rwa [List.append_assoc] at hall

theorem chain : Lays 1 (chain operator? operand join) fun _ ts e =>
    Operates (level :: levels) ts e := by
  refine (h.bind fun left => remaining.bind fun n =>
    chainFrom himplements hsuffix hjoin h n left).mono ?_
  rintro prev _ e ⟨left, us, _, rfl, hleft, n, _, ts, rfl, rfl, hrest⟩
  exact hrest us hleft.operand

end Chain

/-- The tower of levels above unary expressions. -/
theorem disjunction {operand : Parser Expr} (h : Lays 1 operand fun _ ts e => Signs ts e) :
    Lays 1 (disjunction operand) fun _ ts e => Operates precedence ts e := by
  have hunary : Lays 1 operand fun _ ts e => Operates [] ts e :=
    h.mono fun _ _ _ h => ⟨h.stands, fun vs => .unary (h.yields vs)⟩
  have hbinary (op : BinaryOp) (us : List Token) (t : Token) (vs : List Token) (left right : Expr)
      (hleft : Stands us left) (hright : Stands vs right) :=
    Laid.binary op hleft t hright
  have hlogical (op : LogicalOp) (us : List Token) (t : Token) (vs : List Token)
      (left right : Expr) (hleft : Stands us left) (hright : Stands vs right) :=
    Laid.logical op hleft t hright
  have hfactor := chain implements_factor (List.drop_suffix 5 precedence) hbinary hunary
  have hterm := chain implements_term (List.drop_suffix 4 precedence) hbinary hfactor
  have hcomparison := chain implements_comparison (List.drop_suffix 3 precedence) hbinary hterm
  have hequality := chain implements_equality (List.drop_suffix 2 precedence) hbinary hcomparison
  have hconjunction := chain implements_and (List.drop_suffix 1 precedence) hlogical hequality
  exact chain implements_or (List.suffix_refl precedence) hlogical hconjunction

/-! ## Below the operators -/

theorem superMethod {depth : Nat} (start : Location) : Lays depth (superMethod start) fun _ ts e =>
    ∀ t, start = t.span.start → Laid (t :: ts) (.expr e) := by
  refine ((expect _ _).bind fun _ => ended _ _ start fun method span =>
    Expr.super none method.lexeme span).mono ?_
  rintro prev _ e ⟨dot, _, _, rfl, ⟨rfl, -⟩, method, rfl, rfl⟩ t rfl
  exact .leaf (.between t method [dot]) fun i => rfl

section Expressions

variable {expression : Parser Expr} (h : Lays 0 expression fun _ ts e => Stands ts e)

include h

theorem grouping {depth : Nat} (start : Location) : Lays depth (grouping expression start)
    fun _ ts e => ∀ t, start = t.span.start → Laid (t :: ts) (.expr e) := by
  refine ((h.deeper (Nat.zero_le depth)).bind fun inner => ended _ _ start fun _ span =>
    Expr.grouping inner span).mono ?_
  rintro prev _ e ⟨inner, us, _, rfl, hinner, close, rfl, rfl⟩ t rfl
  refine .one (.between t close us) hinner (List.infix_cons List.infix_append_left) ?_
  rintro (_ | i) e' ⟨⟩
  rfl

/-- What is read behind the first token of a primary expression. -/
theorem behindFirst {t : Token} {p : Parser Expr} (hp : behindFirst expression t = some p) :
    Lays 2 p fun _ ts e => Laid (t :: ts) (.expr e) := by
  -- a token that stands for itself
  have leaf {a : Expr} (hspan : a.span = t.span) (hnone : ∀ i, exprChild? a i = none) :
      Lays 2 (Pure.pure a : Parser Expr) fun _ ts e => Laid (t :: ts) (.expr e) := by
    refine (pure a).mono ?_
    rintro prev ts e ⟨rfl, rfl⟩
    exact .leaf (hspan ▸ .single t) hnone
  -- a token that begins more
  have opens {q : Parser Expr} (hq : Lays 2 q fun _ ts e =>
      ∀ t', t.span.start = t'.span.start → Laid (t' :: ts) (.expr e)) :
      Lays 2 q fun _ ts e => Laid (t :: ts) (.expr e) := hq.mono fun _ _ _ hlaid => hlaid t rfl
  unfold Parsing.behindFirst at hp
  split at hp <;> cases hp
  · exact leaf rfl fun _ => rfl
  · exact leaf rfl fun _ => rfl
  · exact leaf rfl fun _ => rfl
  · exact leaf rfl fun _ => rfl
  · exact leaf rfl fun _ => rfl
  · exact leaf rfl fun _ => rfl
  · exact leaf rfl fun _ => rfl
  · exact opens (superMethod t.span.start)
  · exact opens (grouping h t.span.start)

theorem primary : Lays 2 (primary expression) fun _ ts e => Laid ts (.expr e) := by
  intro next c e c' hdepth _ he
  obtain ⟨t, ts, p, hrest, hp, he⟩ := ok_of_primary he
  have hpassed := Passes.advance hrest
  obtain ⟨us, hus, hlaid⟩ := behindFirst h hp _ c.advance e c' (hpassed.depth.symm ▸ hdepth) rfl he
  exact ⟨t :: us, hpassed.trans hus, hlaid⟩

variable (hreads : Reads expression fun room us e vs => Assignment room us e.bare vs)

include hreads

/-- Arguments with the closing parenthesis. -/
theorem arguments : Lays 2 (arguments .strict expression) fun _ ts args =>
    (∃ us close, ts = us ++ [close] ∧ Among Stands us args) ∧
      Yields (fun room us vs => ∃ ms, Arguments room us (Expr.bareAll args) ms ∧
        Terminal .rightParen ms vs) inUnary ts := by
  have hitem (count : Nat) : Lays 2 (do Parsing.checkCount .strict "arguments" count; expression)
      fun _ ts e => Stands ts e := by
    refine ((checkCount "arguments" count).bind fun _ => h.deeper (Nat.zero_le 2)).mono ?_
    rintro prev _ e ⟨_, _, ts, rfl, rfl, he⟩
    exact he
  have hclose (args : List Expr) :=
    (@expect 2 .rightParen "')' after arguments").bind fun _ => pure args
  have hlaid : Lays 2 (Parsing.arguments .strict expression) fun _ ts args =>
      ∃ us close, ts = us ++ [close] ∧ Among Stands us args := by
    refine ((check .rightParen).bind fun empty =>
      ite ((pure []).bind hclose) ((items hitem).bind hclose)).mono ?_
    rintro prev _ args ⟨_, _, ts, rfl, rfl, hnone | hsome⟩
    · obtain ⟨_, _, _, rfl, ⟨rfl, rfl⟩, close, _, _, rfl, ⟨rfl, -⟩, rfl, rfl⟩ := hnone
      exact ⟨[], close, rfl, .nil _ _⟩
    · obtain ⟨args, us, _, rfl, hargs, close, _, _, rfl, ⟨rfl, -⟩, rfl, rfl⟩ := hsome
      exact ⟨us, close, rfl, hargs⟩
  exact hlaid.and_reads (Reads.arguments hreads) fun room us args vs ⟨ms, hargs, hclose⟩ =>
    (arguments_spelled hargs).comp (terminal_spelled hclose)

/-- The calls and property accesses read so far are a node. -/
theorem callFrom (n : Nat) (callee : Expr) :
    Lays 2 (callFrom .strict expression n callee) fun _ ts e =>
      ∀ us, Calls us callee → Calls (us ++ ts) e := by
  induction n generalizing callee with
  | zero =>
      refine (pure callee).mono ?_
      rintro prev ts e ⟨rfl, rfl⟩ us hcallee
      rwa [List.append_nil]
  | succ n ih =>
      unfold Parsing.callFrom
      refine peek_bind fun kind => ?_
      split
      -- arguments make a call of what was read so far, a name a property of it
      · refine (LaysAt.advance_bind ((arguments h hreads).bind fun args =>
          (spanFrom callee.span.start).bind fun span => ih (.call callee args span))).mono ?_
        rintro prev _ e ⟨t, _, rfl, hkind, args, us', _, rfl, ⟨⟨us₁, close, rfl, hargs⟩, hyields⟩,
          span, _, ts, rfl, ⟨rfl, hspan⟩, hrest⟩ us hcallee
        have hcall : Calls (us ++ t :: (us₁ ++ [close])) (.call callee args span) :=
          hcallee.call hkind hargs hyields (hspan close (by rw [List.getLast?_concat]; rfl))
        have hall := hrest _ hcall
        rwa [List.append_assoc] at hall
      · refine (LaysAt.advance_bind ((expect .identifier "property name after '.'").bind fun name =>
          ih (.get callee name.lexeme ⟨callee.span.start, name.span.stop⟩))).mono ?_
        rintro prev _ e ⟨t, _, rfl, hkind, name, _, ts, rfl, ⟨rfl, hname⟩, hrest⟩ us hcallee
        have hget : Calls (us ++ [t, name])
            (.get callee name.lexeme ⟨callee.span.start, name.span.stop⟩) :=
          hcallee.property hkind hname
        have hall := hrest _ hget
        rwa [List.append_assoc] at hall
      · refine (pure callee _).mono ?_
        rintro prev ts e ⟨rfl, rfl⟩ us hcallee
        rwa [List.append_nil]

theorem call : Lays 2 (call .strict expression) fun _ ts e => Calls ts e := by
  have hprimary : Lays 2 (Parsing.primary expression) fun _ ts e => Calls ts e := by
    refine ((primary h).and_reads (Reads.primary hreads) fun _ _ _ _ => primary_spelled).mono ?_
    rintro prev ts e ⟨hlaid, hyields⟩
    have hcalls : Yields (fun room us vs => Call room us e.bare vs) inUnary ts :=
      fun vs => .primary (hyields vs)
    exact ⟨⟨hlaid, derives_call hcalls⟩, hcalls⟩
  refine (hprimary.bind fun e => remaining.bind fun n => callFrom h hreads n e).mono ?_
  rintro prev _ e ⟨callee, us, _, rfl, hcallee, n, _, ts, rfl, rfl, hrest⟩
  exact hrest us hcallee

/-- A sign with its operand, or a call. -/
theorem unaryWith {operand : Parser Expr} (hoperand : Lays 1 operand fun _ ts e => Signs ts e) :
    Lays 2 (unaryWith .strict operand expression) fun _ ts e => Laid ts (.expr e) := by
  refine here_peek_bind fun start kind? => ?_
  split
  · rename_i op hop
    obtain ⟨kind, rfl, hop⟩ := Option.bind_eq_some_iff.1 hop
    refine (LaysAt.advance_bind ((hoperand.deeper (Nat.le_succ 1)).bind fun e =>
      (spanFrom start).bind fun _ => pure _)).mono ?_
    rintro prev _ e ⟨t, _, rfl, -, operand, us, _, rfl, hoperand, span, _, _, rfl, ⟨rfl, hspan⟩,
      rfl, rfl⟩ hstart
    obtain rfl := hstart t rfl
    refine .one (.of_last rfl ?_ hspan) hoperand.stands ?_ ?_
    · rw [List.append_nil, List.append_nil, List.getLast?_cons]
      cases us.getLast? <;> rfl
    · exact List.infix_cons List.infix_append_left
    · rintro (_ | i) e' ⟨⟩
      rfl
  · exact (call h hreads _).mono fun _ _ _ hcall _ => hcall.stands.laid

end Expressions

/-! ## Assignments -/

/-- The target is read as an expression first, and then found to be a variable or a property. -/
theorem assignmentWith {operand value : Parser Expr}
    (hoperand : Lays 1 operand fun _ ts e => Signs ts e)
    (hvalue : Lays 0 value fun _ ts e => Stands ts e) :
    Lays 1 (assignmentWith .strict operand value) fun _ ts e => Laid ts (.expr e) := by
  have hassign (target : Expr) (equals : Token) (value : Expr) :
      Lays 1 (assignTo .strict equals target value) fun _ ts e => ts = [] ∧
        ∀ us vs, Stands us target → Stands vs value → Laid (us ++ equals :: vs) (.expr e) := by
    unfold assignTo
    split
    · refine (pure _).mono ?_
      rintro prev ts e ⟨rfl, rfl⟩
      refine ⟨rfl, fun us vs htarget hvalue => ?_⟩
      refine .one (htarget.covers.joined hvalue.covers [equals]) hvalue ?_ ?_
      · exact List.infix_append_of_infix_right (List.infix_cons (List.infix_refl vs))
      · rintro (_ | i) e' ⟨⟩
        rfl
    · refine (pure _).mono ?_
      rintro prev ts e ⟨rfl, rfl⟩
      refine ⟨rfl, fun us vs htarget hvalue => ?_⟩
      -- the object of the target is the object of the assignment
      obtain ⟨ms, hms, hobject, hderives⟩ := htarget.laid.child (i := 0) rfl
      have hobject' : Stands ms _ := ⟨hobject, hderives _ rfl nofun⟩
      refine .two (htarget.covers.joined hvalue.covers [equals]) hobject' ?_ hvalue ?_ ?_
      · exact hms.trans List.infix_append_left
      · exact List.infix_append_of_infix_right (List.infix_cons (List.infix_refl vs))
      · rintro (_ | _ | i) e' ⟨⟩
        · exact .inl rfl
        · exact .inr rfl
    · exact fun _ _ _ _ _ _ h => nomatch h
  refine ((disjunction hoperand).bind fun target => (check .equal).bind fun equals => ite
    ((expect .equal "'='").bind fun token => (hvalue.deeper (Nat.zero_le 1)).bind fun value =>
      hassign target token value) (pure target)).mono ?_
  rintro prev _ e ⟨target, us, _, rfl, htarget, _, _, ts, rfl, rfl, hassigned | ⟨rfl, rfl⟩⟩
  · obtain ⟨equals, _, _, rfl, ⟨rfl, -⟩, value, vs, _, rfl, hvalue, rfl, hlaid⟩ := hassigned
    rw [List.append_nil]
    exact hlaid us vs htarget.stands hvalue
  · rw [List.append_nil, List.append_nil]
    exact htarget.stands.laid

/-- Expressions, at any bound on the recursion. -/
theorem assignment_unary (n : Nat) :
    Lays 0 (assignment .strict n) (fun _ ts e => Stands ts e) ∧
      Lays 1 (unary .strict n) (fun _ ts e => Signs ts e) := by
  induction n with
  | zero => exact ⟨fail _ _, fail _ _⟩
  | succ n ih =>
      obtain ⟨hassignment, hunary⟩ := ih
      constructor
      · have hlaid : Lays 0 (assignment .strict (n + 1)) fun _ ts e => Laid ts (.expr e) :=
          nested (assignmentWith hunary hassignment)
        refine (hlaid.and_reads (Reads.assignment_unary (n + 1)).1 fun _ _ _ _ =>
          assignment_spelled).mono ?_
        rintro prev ts e ⟨hlaid, hyields⟩
        exact ⟨hlaid, hyields⟩
      · have hlaid : Lays 1 (unary .strict (n + 1)) fun _ ts e => Laid ts (.expr e) :=
          nested (unaryWith hassignment (Reads.assignment_unary n).1 hunary)
        refine (hlaid.and_reads (Reads.assignment_unary (n + 1)).2 fun _ _ _ _ =>
          unary_spelled).mono ?_
        rintro prev ts e ⟨hlaid, hyields⟩
        exact ⟨⟨hlaid, derives_unary hyields⟩, hyields⟩

end Lays

end Lox.Spans
