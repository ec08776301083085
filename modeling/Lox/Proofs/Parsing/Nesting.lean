import Lox.Proofs.Parsing.DanglingElse

/-!
# Derivations without limits

The limit on nesting rules out derivations and changes none. A derivation that fits into some levels
is one without a limit, and a derivation without a limit fits into levels enough: in front of each
token a statement, an assignment and a unary expression can open, so four levels for each token are
more than it takes.

## Contents
- `Assignment.unlimited`, `Declarations.plain`: derivations without their limits.
- `Assignment.levels`, `Declarations.levels`: derivations that fit into enough levels.
- `exists_levels_iff`: the language without limits.
-/

namespace Lox.Grammar

/-! ## The limits forgotten -/

mutual

theorem Assignment.unlimited {room : Room} {us vs : List Token} {e : Expr} :
    Assignment room us e vs → Assignment .unlimited us e vs
  | .variable _ _ hname hequal hvalue =>
    .variable .unlimited .unlimited hname hequal hvalue.unlimited
  | .property _ _ hobject hdot hname hequal hvalue =>
    .property .unlimited .unlimited hobject.unlimited hdot hname hequal hvalue.unlimited
  | .operation _ h => .operation .unlimited h.unlimited

theorem Operation.unlimited {room : Room} {levels : List Operators} {us vs : List Token}
    {e : Expr} : Operation room levels us e vs → Operation .unlimited levels us e vs
  | .unary h => .unary h.unlimited
  | .operand h => .operand h.unlimited
  | .join hleft hmem hop hright => .join hleft.unlimited hmem hop hright.unlimited

theorem Unary.unlimited {room : Room} {us vs : List Token} {e : Expr} :
    Unary room us e vs → Unary .unlimited us e vs
  | .sign _ hmem hsign hoperand => .sign .unlimited hmem hsign hoperand.unlimited
  | .call _ h => .call .unlimited h.unlimited

theorem Call.unlimited {room : Room} {us vs : List Token} {e : Expr} :
    Call room us e vs → Call .unlimited us e vs
  | .primary h => .primary h.unlimited
  | .call hcallee hopen hargs hclose => .call hcallee.unlimited hopen hargs.unlimited hclose
  | .property hobject hdot hname => .property hobject.unlimited hdot hname

theorem Arguments.unlimited {room : Room} {us vs : List Token} {args : List Expr} :
    Arguments room us args vs → Arguments .unlimited us args vs
  | .none => .none
  | .some h hcount => .some h.unlimited hcount

theorem Expressions.unlimited {room : Room} {us vs : List Token} {es : List Expr} :
    Expressions room us es vs → Expressions .unlimited us es vs
  | .last h => .last h.unlimited
  | .cons h hcomma hs => .cons h.unlimited hcomma hs.unlimited

theorem Primary.unlimited {room : Room} {us vs : List Token} {e : Expr} :
    Primary room us e vs → Primary .unlimited us e vs
  | .false h => .false h
  | .true h => .true h
  | .nil h => .nil h
  | .literal h => .literal h
  | .this h => .this h
  | .variable h => .variable h
  | .grouping hopen h hclose => .grouping hopen h.unlimited hclose
  | .super hsuper hdot hname => .super hsuper hdot hname

end

/-! ## Enough levels -/

theorem Room.opens_pred {n : Nat} (h : 0 < n) : (Room.levels n).Opens (.levels (n - 1)) := by
  obtain ⟨k, rfl⟩ : ∃ k, n = k + 1 := ⟨n - 1, by omega⟩
  exact .level

mutual

theorem Assignment.levels {room : Room} {us vs : List Token} {e : Expr} :
    Assignment room us e vs → ∀ n, 4 * us.length + 2 ≤ n → Assignment (.levels n) us e vs
  | .variable _ _ hname hequal hvalue, n, hn => by
    have hnameLength := hname.begins.length_lt
    have hequalLength := hequal.begins.length_lt
    exact .variable (Room.opens_pred (by omega)) (Room.opens_pred (by omega)) hname hequal
      (hvalue.levels (n - 1) (by omega))
  | .property _ _ hobject hdot hname hequal hvalue, n, hn => by
    have hobjectLength := hobject.begins.length_lt
    have hdotLength := hdot.begins.length_lt
    have hnameLength := hname.begins.length_lt
    have hequalLength := hequal.begins.length_lt
    exact .property (Room.opens_pred (by omega)) (Room.opens_pred (by omega))
      (hobject.levels (n - 1 - 1) (by omega)) hdot hname hequal (hvalue.levels (n - 1) (by omega))
  | .operation _ h, n, hn =>
    .operation (Room.opens_pred (by omega)) (h.levels (n - 1) (by omega))

theorem Operation.levels {room : Room} {levels : List Operators} {us vs : List Token} {e : Expr} :
    Operation room levels us e vs → ∀ n, 4 * us.length + 1 ≤ n →
      Operation (.levels n) levels us e vs
  | .unary h, n, hn => .unary (h.levels n hn)
  | .operand h, n, hn => .operand (h.levels n hn)
  | .join hleft hmem hop hright, n, hn => by
    have hleftLength := hleft.begins.length_lt
    have hopLength := hop.begins.length_lt
    exact .join (hleft.levels n hn) hmem hop (hright.levels n (by omega))

theorem Unary.levels {room : Room} {us vs : List Token} {e : Expr} :
    Unary room us e vs → ∀ n, 4 * us.length + 1 ≤ n → Unary (.levels n) us e vs
  | .sign _ hmem hsign hoperand, n, hn => by
    have hsignLength := hsign.begins.length_lt
    exact .sign (Room.opens_pred (by omega)) hmem hsign (hoperand.levels (n - 1) (by omega))
  | .call _ h, n, hn => .call (Room.opens_pred (by omega)) (h.levels (n - 1) (by omega))

theorem Call.levels {room : Room} {us vs : List Token} {e : Expr} :
    Call room us e vs → ∀ n, 4 * us.length ≤ n → Call (.levels n) us e vs
  | .primary h, n, hn => .primary (h.levels n hn)
  | .call hcallee hopen hargs hclose, n, hn => by
    have hcalleeLength := hcallee.begins.length_lt
    have hopenLength := hopen.begins.length_lt
    exact .call (hcallee.levels n hn) hopen (hargs.levels n (by omega)) hclose
  | .property hobject hdot hname, n, hn => .property (hobject.levels n hn) hdot hname

theorem Arguments.levels {room : Room} {us vs : List Token} {args : List Expr} :
    Arguments room us args vs → ∀ n, 4 * us.length + 2 ≤ n → Arguments (.levels n) us args vs
  | .none, _, _ => .none
  | .some h hcount, n, hn => .some (h.levels n hn) hcount

theorem Expressions.levels {room : Room} {us vs : List Token} {es : List Expr} :
    Expressions room us es vs → ∀ n, 4 * us.length + 2 ≤ n → Expressions (.levels n) us es vs
  | .last h, n, hn => .last (h.levels n hn)
  | .cons h hcomma hs, n, hn => by
    have hlength := h.begins.length_lt
    have hcommaLength := hcomma.begins.length_lt
    exact .cons (h.levels n hn) hcomma (hs.levels n (by omega))

theorem Primary.levels {room : Room} {us vs : List Token} {e : Expr} :
    Primary room us e vs → ∀ n, 4 * us.length ≤ n → Primary (.levels n) us e vs
  | .false h, _, _ => .false h
  | .true h, _, _ => .true h
  | .nil h, _, _ => .nil h
  | .literal h, _, _ => .literal h
  | .this h, _, _ => .this h
  | .variable h, _, _ => .variable h
  | .grouping hopen h hclose, n, hn => by
    have hopenLength := hopen.begins.length_lt
    exact .grouping hopen (h.levels n (by omega)) hclose
  | .super hsuper hdot hname, _, _ => .super hsuper hdot hname

end

/-! ## Parts of statements -/

section Parts

variable {room room' : Room} {us vs : List Token}
  (he : ∀ {ms ws e}, ms.length ≤ us.length → Assignment room ms e ws → Assignment room' ms e ws)

include he

theorem OptionalExpression.mono {e : Option Expr}
    (h : OptionalExpression room us e vs) : OptionalExpression room' us e vs := by
  cases h with
  | none => exact .none
  | some h => exact .some (he (Nat.le_refl _) h)

theorem ExpressionStatement.mono {s : Stmt}
    (h : ExpressionStatement room us s vs) : ExpressionStatement room' us s vs := by
  cases h with
  | intro h hsemicolon => exact .intro (he (Nat.le_refl _) h) hsemicolon

theorem VarDeclaration.mono {d : Decl}
    (h : VarDeclaration room us d vs) : VarDeclaration room' us d vs := by
  cases h with
  | uninitialized hvar hname hsemicolon => exact .uninitialized hvar hname hsemicolon
  | initialized hvar hname hequal h hsemicolon =>
      have hsuffix := hequal.suffix.trans (hname.suffix.trans hvar.suffix)
      exact .initialized hvar hname hequal (he hsuffix.length_le h) hsemicolon

theorem Condition.mono {kind : Token.Kind} {e : Expr}
    (h : Condition kind room us e vs) : Condition kind room' us e vs := by
  cases h with
  | intro hword hopen h hclose =>
      exact .intro hword hopen (he (hopen.suffix.trans hword.suffix).length_le h) hclose

theorem ForInitializer.mono {d : Option Decl}
    (h : ForInitializer room us d vs) : ForInitializer room' us d vs := by
  cases h with
  | none h => exact .none h
  | declaration h => exact .declaration (h.mono he)
  | expression h => exact .expression (h.mono he)

theorem ForClauses.mono {clauses : Clauses}
    (h : ForClauses room us clauses vs) : ForClauses room' us clauses vs := by
  cases h with
  | intro hword hopen hinitial hcondition hsemicolon hincrement hclose =>
      have hsuffix₂ := hopen.suffix.trans hword.suffix
      have hsuffix₃ := hinitial.suffix.trans hsuffix₂
      have hsuffix₅ := hsemicolon.suffix.trans (hcondition.suffix.trans hsuffix₃)
      exact .intro hword hopen
        (hinitial.mono fun hlength => he (Nat.le_trans hlength hsuffix₂.length_le))
        (hcondition.mono fun hlength => he (Nat.le_trans hlength hsuffix₃.length_le)) hsemicolon
        (hincrement.mono fun hlength => he (Nat.le_trans hlength hsuffix₅.length_le)) hclose

end Parts

/-! ## Statements and declarations -/

mutual

theorem Statement.plain {nearest : Prop} {room : Room} {us vs : List Token} {s : Stmt} :
    Statement nearest room us s vs → Statement False .unlimited us s vs
  | .expression _ h => .expression .unlimited (h.mono fun _ => Assignment.unlimited)
  | .print _ hword he hsemicolon => .print .unlimited hword he.unlimited hsemicolon
  | .block _ hopen hbody hclose => .block .unlimited hopen hbody.plain hclose
  | .ifThen _ hcondition hthen _ =>
    .ifThen .unlimited (hcondition.mono fun _ => Assignment.unlimited) hthen.plain False.elim
  | .ifThenElse _ hcondition hthen helse hotherwise =>
    .ifThenElse .unlimited (hcondition.mono fun _ => Assignment.unlimited) hthen.plain helse
      hotherwise.plain
  | .whileLoop _ hcondition hbody =>
    .whileLoop .unlimited (hcondition.mono fun _ => Assignment.unlimited) hbody.plain
  | .forLoop _ hclauses hbody =>
    .forLoop .unlimited (hclauses.mono fun _ => Assignment.unlimited) hbody.plain
  | .break _ hword hsemicolon => .break .unlimited hword hsemicolon
  | .continue _ hword hsemicolon => .continue .unlimited hword hsemicolon
  | .return _ hword he hsemicolon =>
    .return .unlimited hword (he.mono fun _ => Assignment.unlimited) hsemicolon

theorem Declaration.plain {nearest : Prop} {room : Room} {us vs : List Token} {d : Decl} :
    Declaration nearest room us d vs → Declaration False .unlimited us d vs
  | .class hword hname hsuperclass hopen hmethods hclose =>
    .class hword hname hsuperclass hopen hmethods.plain hclose
  | .function hword hf => .function hword hf.plain
  | .var h => .var (h.mono fun _ => Assignment.unlimited)
  | .statement h => .statement h.plain

theorem Declarations.plain {nearest : Prop} {room : Room} {us vs : List Token} {ds : List Decl} :
    Declarations nearest room us ds vs → Declarations False .unlimited us ds vs
  | .nil => .nil
  | .cons hd hds => .cons hd.plain hds.plain

theorem Function.plain {nearest : Prop} {room : Room} {us vs : List Token} {f : FunctionDecl} :
    Function nearest room us f vs → Function False .unlimited us f vs
  | .intro hname hopen hparams hclose hbrace hbody hend =>
    .intro hname hopen hparams hclose hbrace hbody.plain hend

theorem Methods.plain {nearest : Prop} {room : Room} {us vs : List Token}
    {fs : List FunctionDecl} : Methods nearest room us fs vs → Methods False .unlimited us fs vs
  | .nil => .nil
  | .cons hf hfs => .cons hf.plain hfs.plain

end

mutual

theorem Statement.levels {nearest : Prop} {room : Room} {us vs : List Token} {s : Stmt} :
    Statement nearest room us s vs → ∀ n, 4 * us.length + 3 ≤ n →
      Statement nearest (.levels n) us s vs
  | .expression _ h, n, hn =>
    .expression (Room.opens_pred (by omega))
      (h.mono fun hlength he => he.levels (n - 1) (by omega))
  | .print _ hword he hsemicolon, n, hn => by
    have hwordLength := hword.begins.length_lt
    exact .print (Room.opens_pred (by omega)) hword (he.levels (n - 1) (by omega)) hsemicolon
  | .block _ hopen hbody hclose, n, hn => by
    have hopenLength := hopen.begins.length_lt
    exact .block (Room.opens_pred (by omega)) hopen (hbody.levels (n - 1) (by omega)) hclose
  | .ifThen _ hcondition hthen hnoElse, n, hn => by
    have hconditionLength := hcondition.begins.length_lt
    exact .ifThen (Room.opens_pred (by omega))
      (hcondition.mono fun hlength he => he.levels (n - 1) (by omega))
      (hthen.levels (n - 1) (by omega)) hnoElse
  | .ifThenElse _ hcondition hthen helse hotherwise, n, hn => by
    have hconditionLength := hcondition.begins.length_lt
    have hthenLength := hthen.begins.length_lt
    have helseLength := helse.begins.length_lt
    exact .ifThenElse (Room.opens_pred (by omega))
      (hcondition.mono fun hlength he => he.levels (n - 1) (by omega))
      (hthen.levels (n - 1) (by omega)) helse (hotherwise.levels (n - 1) (by omega))
  | .whileLoop _ hcondition hbody, n, hn => by
    have hconditionLength := hcondition.begins.length_lt
    exact .whileLoop (Room.opens_pred (by omega))
      (hcondition.mono fun hlength he => he.levels (n - 1) (by omega))
      (hbody.levels (n - 1) (by omega))
  | .forLoop _ hclauses hbody, n, hn => by
    have hclausesLength := hclauses.begins.length_lt
    exact .forLoop (Room.opens_pred (by omega))
      (hclauses.mono fun hlength he => he.levels (n - 1) (by omega))
      (hbody.levels (n - 1) (by omega))
  | .break _ hword hsemicolon, n, hn =>
    .break (Room.opens_pred (by omega)) hword hsemicolon
  | .continue _ hword hsemicolon, n, hn =>
    .continue (Room.opens_pred (by omega)) hword hsemicolon
  | .return _ hword he hsemicolon, n, hn => by
    have hwordLength := hword.begins.length_lt
    exact .return (Room.opens_pred (by omega)) hword
      (he.mono fun hlength he => he.levels (n - 1) (by omega)) hsemicolon

theorem Declaration.levels {nearest : Prop} {room : Room} {us vs : List Token} {d : Decl} :
    Declaration nearest room us d vs → ∀ n, 4 * us.length + 3 ≤ n →
      Declaration nearest (.levels n) us d vs
  | .class hword hname hsuperclass hopen hmethods hclose, n, hn => by
    have hsuffix := hopen.suffix.trans
      (hsuperclass.suffix.trans (hname.suffix.trans hword.suffix))
    have hlength := hsuffix.length_le
    exact .class hword hname hsuperclass hopen (hmethods.levels n (by omega)) hclose
  | .function hword hf, n, hn => by
    have hwordLength := hword.begins.length_lt
    exact .function hword (hf.levels n (by omega))
  | .var h, n, hn => .var (h.mono fun hlength he => he.levels n (by omega))
  | .statement h, n, hn => .statement (h.levels n hn)

theorem Declarations.levels {nearest : Prop} {room : Room} {us vs : List Token}
    {ds : List Decl} : Declarations nearest room us ds vs → ∀ n, 4 * us.length + 3 ≤ n →
      Declarations nearest (.levels n) us ds vs
  | .nil, _, _ => .nil
  | .cons hd hds, n, hn => by
    have hlength := hd.begins.length_lt
    exact .cons (hd.levels n hn) (hds.levels n (by omega))

theorem Function.levels {nearest : Prop} {room : Room} {us vs : List Token} {f : FunctionDecl} :
    Function nearest room us f vs → ∀ n, 4 * us.length + 3 ≤ n →
      Function nearest (.levels n) us f vs
  | .intro hname hopen hparams hclose hbrace hbody hend, n, hn => by
    have hsuffix := hbrace.suffix.trans (hclose.suffix.trans
      (hparams.suffix.trans (hopen.suffix.trans hname.suffix)))
    have hlength := hsuffix.length_le
    exact .intro hname hopen hparams hclose hbrace (hbody.levels n (by omega)) hend

theorem Methods.levels {nearest : Prop} {room : Room} {us vs : List Token}
    {fs : List FunctionDecl} : Methods nearest room us fs vs → ∀ n, 4 * us.length + 3 ≤ n →
      Methods nearest (.levels n) us fs vs
  | .nil, _, _ => .nil
  | .cons hf hfs, n, hn => by
    have hlength := hf.begins.length_lt
    exact .cons (hf.levels n hn) (hfs.levels n (by omega))

end

/-- **The language without limits.** What derives a program when any `if` may take an `else`, and
nesting has no limit, derives one with every `else` at its nearest `if` within some number of
levels. -/
theorem exists_levels_iff (us : List Token) :
    (∃ ds, Declarations False .unlimited us ds []) ↔
      ∃ n ds, Declarations True (.levels n) us ds [] := by
  constructor
  · rintro ⟨ds, hds⟩
    obtain ⟨ds', hds'⟩ := exists_nearest hds
    exact ⟨_, ds', hds'.levels _ (Nat.le_refl _)⟩
  · rintro ⟨n, ds, hds⟩
    exact ⟨ds, hds.plain⟩

end Lox.Grammar
