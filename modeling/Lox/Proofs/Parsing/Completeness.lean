import Lox.Proofs.Parsing.Productions

/-!
# What is derivable is read

A strict parser that stands in front of derivable tokens, with the room that the derivation needs,
passes exactly these tokens and makes the tree of the derivation. The proof follows the derivation,
and asks of the tokens behind that they do not go on with what is derived.

## Contents
- `accepts_assignment`, `progress_of_operation`: expressions.
- `accepts_optional`, `accepts_forInitializer` and the others: parts of statements.
- `accepts_statement`, `accepts_declaration`: statements and declarations.
- `accepts_program`: a program that derives all tokens is read.
-/

namespace Lox.Parsing

open Grammar

/-! ## Derivations of expressions

By recursion on derivations. The bound on the recursion of the parser is counted in tokens: four
for each token still to come, and up to two more for the assignment and the unary expression that
open in front of the same token. -/

mutual

theorem accepts_assignment {room : Room} {us vs : List Token} {e : Expr} :
    Assignment room us e vs → Closed vs → ∀ n, 4 * us.length + 2 ≤ n →
      Accepts (assignment .strict n) room us (·.bare = e) vs
  | .variable hopens hopens' hname hequal hvalue, hclosed, n, hn => by
    have hnameLength := hname.begins.length_lt
    have hequalLength := hequal.begins.length_lt
    obtain ⟨n, rfl⟩ : ∃ k, n = k + 2 := ⟨n - 2, by omega⟩
    -- the target is read as an operation of all levels, and is none but a name
    have htarget := accepts_unary (n := n) hopens' (starts_primary (accepts_name hname))
      (hname.begins.mono (by decide)) (stops_of_terminal hequal (by decide))
    refine accepts_assign hopens htarget hequal
      (accepts_assignment hvalue hclosed (n + 1) (by omega)) ?_
    intro equals target value htarget hvalue
    obtain ⟨use, rfl, rfl⟩ := eq_variable_of_bare htarget
    rw [← hvalue]
    exact .pure rfl
  | .property hopens hopens' hobject hdot hname hequal hvalue, hclosed, n, hn => by
    have hobjectLength := hobject.begins.length_lt
    have hdotLength := hdot.begins.length_lt
    have hnameLength := hname.begins.length_lt
    have hequalLength := hequal.begins.length_lt
    obtain ⟨n, rfl⟩ : ∃ k, n = k + 2 := ⟨n - 2, by omega⟩
    have htarget := accepts_unary (n := n) hopens'
      (starts_property (starts_of_call hobject n (by omega)) hdot hname)
      (hobject.begins.append (hname.suffix.trans hdot.suffix))
      (stops_of_terminal hequal (by decide))
    refine accepts_assign hopens htarget hequal
      (accepts_assignment hvalue hclosed (n + 1) (by omega)) ?_
    intro equals target value htarget hvalue
    obtain ⟨object, span, rfl, hobject⟩ := eq_get_of_bare htarget
    rw [← hvalue, ← hobject]
    exact .pure rfl
  | .operation hopens h, hclosed, n, hn => by
    obtain ⟨n, rfl⟩ : ∃ k, n = k + 1 := ⟨n - 1, by omega⟩
    obtain ⟨hstops, hequal⟩ := hclosed
    refine .nested hopens ?_
    refine (accepts_of_progress (progress_of_operation h n (by omega)) (tower_disjunction _)
      hstops).bind fun target htarget => ?_
    exact Accepts.check_bind_of_ne hequal (.pure htarget)

theorem progress_of_operation {room : Room} {levels : List Operators} {us vs : List Token}
    {e : Expr} : Operation room levels us e vs → ∀ n, 4 * us.length + 1 ≤ n →
      Progress (unary .strict n) room us e vs levels
  | .unary h, n, hn => fun hstops => accepts_unary_of_derivation h hstops n hn
  | .operand h, n, hn => fun _ _ _ _ _ htower _ _ hstops =>
    starts_operand (accepts_of_progress (progress_of_operation h n hn) htower hstops)
  | .join hleft hmem hop hright, n, hn => by
    intro γ operator? join tree p htower himplements hdisjoint hstops
    have hleftLength := hleft.begins.length_lt
    have hopLength := hop.begins.length_lt
    have hstart := progress_of_operation hleft n hn γ operator? join tree p htower himplements
      hdisjoint (stops_of_terminal hop (hdisjoint _ _ hmem))
    refine starts_join himplements hstart hmem hop ?_ hright.begins.suffix
    exact accepts_of_progress (progress_of_operation hright n (by omega)) htower hstops

theorem accepts_unary_of_derivation {room : Room} {us vs : List Token} {e : Expr} :
    Unary room us e vs → Stops [] vs → ∀ n, 4 * us.length + 1 ≤ n →
      Accepts (unary .strict n) room us (·.bare = e) vs
  | .sign hopens hmem hsign hoperand, hstops, n, hn => by
    have hsignLength := hsign.begins.length_lt
    obtain ⟨n, rfl⟩ : ∃ k, n = k + 1 := ⟨n - 1, by omega⟩
    refine .nested hopens (Accepts.here.bind fun start _ => ?_)
    refine Accepts.peek_bind hsign.head ?_
    have hoperand := accepts_unary_of_derivation hoperand hstops n (by omega)
    simp only [signs, List.mem_cons, List.not_mem_nil, or_false, Prod.mk.injEq] at hmem
    rcases hmem with ⟨rfl, rfl⟩ | ⟨rfl, rfl⟩ <;>
      exact (Accepts.advance hsign).bind fun _ _ => hoperand.bind fun e he =>
        (Accepts.spanFrom _).bind fun _ _ => .pure (he ▸ rfl)
  | .call hopens h, hstops, n, hn => by
    obtain ⟨n, rfl⟩ : ∃ k, n = k + 1 := ⟨n - 1, by omega⟩
    exact accepts_unary hopens (starts_of_call h n (by omega)) h.begins hstops

theorem starts_of_call {room : Room} {us vs : List Token} {e : Expr} :
    Call room us e vs → ∀ n, 4 * us.length ≤ n →
      Starts (call .strict (assignment .strict n)) (callFrom .strict (assignment .strict n))
        room us e vs
  | .primary h, n, hn => starts_primary (accepts_primary_of_derivation h n hn)
  | .call hcallee hopen hargs hclose, n, hn => by
    have hcalleeLength := hcallee.begins.length_lt
    have hopenLength := hopen.begins.length_lt
    exact starts_call (starts_of_call hcallee n hn) hopen
      (accepts_arguments hargs hclose n (by omega)) (hclose.suffix.trans hargs.suffix)
  | .property hobject hdot hname, n, hn =>
    starts_property (starts_of_call hobject n hn) hdot hname

theorem accepts_arguments {room : Room} {us vs ws : List Token} {args : List Expr} :
    Arguments room us args vs → Terminal .rightParen vs ws → ∀ n, 4 * us.length + 2 ≤ n →
      Accepts (arguments .strict (assignment .strict n)) room us (Expr.bareAll · = args) ws
  | .none, hclose, n, hn => by
    refine Accepts.check_bind hclose.head ?_
    exact (Accepts.expect _ hclose).bind fun _ _ => .pure rfl
  | .some hlist hcount, hclose, n, hn => by
    refine Accepts.check_bind_of_ne (hlist.begins.head_ne (by decide)) ?_
    refine Accepts.bind (P := (Expr.bareAll · = args)) ?_ fun args' hargs' =>
      (Accepts.expect _ hclose).bind fun _ _ => .pure hargs'
    refine Accepts.remaining.bind fun m hm => ?_
    exact accepts_expressions hlist (closed_of_terminal hclose (by decide))
      (by rw [hclose.head]; decide) n hn (m + 1) 0 (by omega) (by simpa [maxArity] using hcount)

theorem accepts_expressions {room : Room} {us vs : List Token} {es : List Expr} :
    Expressions room us es vs → Closed vs → vs.head?.map (·.kind) ≠ some .comma →
      ∀ n, 4 * us.length + 2 ≤ n → ∀ m count, us.length < m → count + es.length ≤ maxArity →
      Accepts (itemsFrom (fun count => do
          checkCount .strict "arguments" count
          assignment .strict n) m count) room us (Expr.bareAll · = es) vs
  | .last h, hclosed, hcomma, n, hn, m, count, hm, hcount => by
    obtain ⟨m, rfl⟩ : ∃ k, m = k + 1 := ⟨m - 1, by omega⟩
    refine (accepts_last ((Accepts.checkCount _ hcount).bind fun _ _ =>
      accepts_assignment h hclosed n hn) hcomma).mono ?_
    rintro _ ⟨e, rfl, rfl⟩
    rfl
  | .cons h hnext hothers, hclosed, hcomma, n, hn, m, count, hm, hcount => by
    have hlength := h.begins.length_lt
    have hnextLength := hnext.begins.length_lt
    obtain ⟨m, rfl⟩ : ∃ k, m = k + 1 := ⟨m - 1, by omega⟩
    rw [List.length_cons] at hcount
    have hfirst := accepts_assignment h (closed_of_terminal hnext (by decide)) n hn
    refine (accepts_cons ((Accepts.checkCount _ (by omega)).bind fun _ _ => hfirst) hnext
      (accepts_expressions hothers hclosed hcomma n (by omega) m (count + 1) (by omega)
        (by omega))).mono ?_
    rintro _ ⟨e, es, rfl, rfl, rfl⟩
    rfl

theorem accepts_primary_of_derivation {room : Room} {us vs : List Token} {e : Expr} :
    Primary room us e vs → ∀ n, 4 * us.length ≤ n →
      Accepts (primary (assignment .strict n)) room us (·.bare = e) vs
  | .false (.intro hkind), n, hn =>
    accepts_leaf (.literal (.bool .false)) (by simp only [behindFirst, hkind]) fun _ => rfl
  | .true (.intro hkind), n, hn =>
    accepts_leaf (.literal (.bool .true)) (by simp only [behindFirst, hkind]) fun _ => rfl
  | .nil (.intro hkind), n, hn =>
    accepts_leaf (.literal .nil) (by simp only [behindFirst, hkind]) fun _ => rfl
  | .literal hkind, n, hn => by
    refine accepts_leaf (.literal _) ?_ fun _ => rfl
    rcases hkind with hkind | hkind <;> simp only [behindFirst, hkind]
  | .this (.intro hkind), n, hn =>
    accepts_leaf (.this none) (by simp only [behindFirst, hkind]) fun _ => rfl
  | .variable hname, n, hn => accepts_name hname
  | .grouping hopen h hclose, n, hn => by
    have hopenLength := hopen.begins.length_lt
    exact accepts_grouping hopen
      (accepts_assignment h (closed_of_terminal hclose (by decide)) n (by omega)) hclose
  | .super hsuper hdot hname, n, hn => accepts_super hsuper hdot hname

end

/-! ## Parts of statements -/

section Parts

variable {room : Room} {us vs ws : List Token} {n : Nat}

theorem accepts_optional {kind : Token.Kind} {e : Option Expr}
    (h : OptionalExpression room us e vs) (hnext : Terminal kind vs ws)
    (hkind : kind ∈ [Token.Kind.rightParen, .semicolon]) (hn : 4 * us.length + 2 ≤ n) :
    Accepts (optionalBefore kind (assignment .strict n)) room us (·.map Expr.bare = e) vs := by
  have hclosed : Closed vs := closed_of_terminal hnext (by
    simp only [List.mem_cons, List.not_mem_nil, or_false] at hkind ⊢
    exact hkind.elim .inl fun h => .inr (.inr h))
  cases h with
  | none => exact Accepts.check_bind hnext.head (.pure rfl)
  | some he =>
      -- neither of the two kinds begins an expression
      refine Accepts.check_bind_of_ne (he.begins.head_ne ?_) ?_
      · simp only [List.mem_cons, List.not_mem_nil, or_false] at hkind
        rcases hkind with rfl | rfl <;> decide
      · exact .map some ((accepts_assignment he hclosed n hn).mono fun e he => congrArg some he)

theorem accepts_expressionStatement_of_derivation {s : Stmt} (h : ExpressionStatement room us s vs)
    (hn : 4 * us.length + 2 ≤ n) :
    Accepts (expressionStatement (assignment .strict n)) room us (·.bare = s) vs := by
  cases h with
  | intro he hsemicolon =>
      have hclosed := closed_of_terminal hsemicolon (by decide)
      exact accepts_expressionStatement (accepts_assignment he hclosed n hn) hsemicolon

/-- A variable declaration begins with a word, and is read from behind it. -/
theorem accepts_varDeclaration_of_derivation {d : Decl} (h : VarDeclaration room us d vs)
    (hn : 4 * us.length + 2 ≤ n) :
    ∃ ms, Terminal .var us ms ∧ ∀ start : Location,
      Accepts (varDeclaration (assignment .strict n) start) room ms (·.bare = d) vs := by
  cases h with
  | uninitialized hword hname hsemicolon =>
      exact ⟨_, hword, accepts_varDeclaration hname hsemicolon⟩
  | initialized hword hname hequal he hsemicolon =>
      have hwordLength := hword.begins.length_lt
      have hnameLength := hname.begins.length_lt
      have hequalLength := hequal.begins.length_lt
      have hinitial := accepts_assignment he (closed_of_terminal hsemicolon (by decide)) n (by omega)
      exact ⟨_, hword, accepts_varDeclaration_initialized hname hequal hinitial hsemicolon⟩

theorem accepts_forInitializer {initial : Option Decl} (h : ForInitializer room us initial vs)
    (hn : 4 * us.length + 2 ≤ n) :
    Accepts (forInitializer (assignment .strict n)) room us (·.map Decl.bare = initial) vs := by
  refine Accepts.here.bind fun start _ => ?_
  cases h with
  | none hsemicolon =>
      refine Accepts.peek_bind hsemicolon.head ?_
      exact (Accepts.advance hsemicolon).bind fun _ _ => .pure rfl
  | declaration hd =>
      obtain ⟨ms, hword, hvar⟩ := accepts_varDeclaration_of_derivation hd hn
      refine Accepts.peek_bind hword.head ?_
      refine (Accepts.advance hword).bind fun _ _ => .map some ((hvar start).mono fun d hd => ?_)
      exact congrArg some hd
  | expression hs =>
      refine Accepts.peek_bind rfl ?_
      have hstatement := (accepts_expressionStatement_of_derivation hs hn).mono
        (Q := fun s => (some (Decl.stmt s)).map Decl.bare = some (.stmt _))
        fun s hs => congrArg (fun s => some (Decl.stmt s)) hs
      split
      · rename_i hkind
        exact absurd hkind (hs.begins.head_ne (by decide))
      · rename_i hkind
        exact absurd hkind (hs.begins.head_ne (by decide))
      · exact .map _ hstatement

theorem closesBody_of_terminal (h : Terminal .rightBrace us vs) :
    closesBody (us.head?.map (·.kind)) = true := by
  rw [h.head]
  rfl

theorem not_closesBody_of_first : ∀ kind ∈ firstOfDeclaration, closesBody (some kind) = false := by
  decide

end Parts

/-! ## Derivations of statements and declarations

By recursion on derivations, with a bound on the recursion of the parser as before: three more for
a statement, four more for a declaration. -/

mutual

theorem accepts_statement {room : Room} {us vs : List Token} {s : Stmt} :
    Statement True room us s vs → ∀ n, 4 * us.length + 3 ≤ n →
      Accepts (statement .strict n) room us (·.bare = s) vs
  | .expression hopens h, n, hn => by
    obtain ⟨n, rfl⟩ : ∃ k, n = k + 1 := ⟨n - 1, by omega⟩
    have hstatement := accepts_expressionStatement_of_derivation h (n := n) (by omega)
    refine .nested hopens (Accepts.here.bind fun start _ => ?_)
    -- no word that a statement can begin with begins an expression
    obtain ⟨kind, hmem, hhead⟩ := h.begins.head
    refine Accepts.peek_bind hhead ?_
    simp only [firstOfExpression, firstOfCall, List.cons_append, List.nil_append, List.mem_cons,
      List.not_mem_nil, or_false] at hmem
    rcases hmem with rfl | rfl | rfl | rfl | rfl | rfl | rfl | rfl | rfl | rfl | rfl <;>
      exact hstatement
  | .print hopens hword he hsemicolon, n, hn => by
    have hwordLength := hword.begins.length_lt
    obtain ⟨n, rfl⟩ : ∃ k, n = k + 1 := ⟨n - 1, by omega⟩
    have he := accepts_assignment he (closed_of_terminal hsemicolon (by decide)) n (by omega)
    exact .nested hopens (accepts_word hword (fun _ => rfl) (accepts_printStatement he hsemicolon))
  | .block hopens hopen hbody hclose, n, hn => by
    have hopenLength := hopen.begins.length_lt
    obtain ⟨n, rfl⟩ : ∃ k, n = k + 1 := ⟨n - 1, by omega⟩
    have hbody := accepts_body (accepts_declarations not_closesBody_of_first
      (closesBody_of_terminal hclose) hbody n (by omega)) hclose
    exact .nested hopens (accepts_word hopen (fun _ => rfl) (accepts_blockStatement hbody))
  | .ifThen hopens (.intro hword hopen he hclose) hthen hnoElse, n, hn => by
    have hwordLength := hword.begins.length_lt
    have hopenLength := hopen.begins.length_lt
    have heLength := he.begins.length_lt
    have hcloseLength := hclose.begins.length_lt
    obtain ⟨n, rfl⟩ : ∃ k, n = k + 1 := ⟨n - 1, by omega⟩
    have he := accepts_assignment he (closed_of_terminal hclose (by decide)) n (by omega)
    have hthen := accepts_statement hthen n (by omega)
    exact .nested hopens (accepts_word hword (fun _ => rfl)
      (accepts_ifThen hopen he hclose hthen (hnoElse trivial)))
  | .ifThenElse hopens (.intro hword hopen he hclose) hthen helse hotherwise, n, hn => by
    have hwordLength := hword.begins.length_lt
    have hopenLength := hopen.begins.length_lt
    have heLength := he.begins.length_lt
    have hcloseLength := hclose.begins.length_lt
    have hthenLength := hthen.begins.length_lt
    have helseLength := helse.begins.length_lt
    obtain ⟨n, rfl⟩ : ∃ k, n = k + 1 := ⟨n - 1, by omega⟩
    have he := accepts_assignment he (closed_of_terminal hclose (by decide)) n (by omega)
    have hthen := accepts_statement hthen n (by omega)
    have hotherwise := accepts_statement hotherwise n (by omega)
    exact .nested hopens (accepts_word hword (fun _ => rfl)
      (accepts_ifThenElse hopen he hclose hthen helse hotherwise))
  | .whileLoop hopens (.intro hword hopen he hclose) hbody, n, hn => by
    have hwordLength := hword.begins.length_lt
    have hopenLength := hopen.begins.length_lt
    have heLength := he.begins.length_lt
    have hcloseLength := hclose.begins.length_lt
    obtain ⟨n, rfl⟩ : ∃ k, n = k + 1 := ⟨n - 1, by omega⟩
    have he := accepts_assignment he (closed_of_terminal hclose (by decide)) n (by omega)
    have hbody := accepts_statement hbody n (by omega)
    exact .nested hopens (accepts_word hword (fun _ => rfl)
      (accepts_whileStatement hopen he hclose hbody))
  | .forLoop hopens (.intro hword hopen hinitial hcondition hsemicolon hincrement hclose) hbody,
      n, hn => by
    have hwordLength := hword.begins.length_lt
    have hopenLength := hopen.begins.length_lt
    have hinitialLength := hinitial.suffix.length_le
    have hconditionLength := hcondition.suffix.length_le
    have hsemicolonLength := hsemicolon.begins.length_lt
    have hincrementLength := hincrement.suffix.length_le
    have hcloseLength := hclose.begins.length_lt
    obtain ⟨n, rfl⟩ : ∃ k, n = k + 1 := ⟨n - 1, by omega⟩
    have hinitial := accepts_forInitializer hinitial (n := n) (by omega)
    have hcondition := accepts_optional hcondition hsemicolon (by decide) (n := n) (by omega)
    have hincrement := accepts_optional hincrement hclose (by decide) (n := n) (by omega)
    have hbody := accepts_statement hbody n (by omega)
    exact .nested hopens (accepts_word hword (fun _ => rfl)
      (accepts_forStatement hopen hinitial hcondition hsemicolon hincrement hclose hbody))
  | .break hopens hword hsemicolon, n, hn => by
    obtain ⟨n, rfl⟩ : ∃ k, n = k + 1 := ⟨n - 1, by omega⟩
    exact .nested hopens (accepts_word hword (fun _ => rfl) (accepts_breakStatement hsemicolon))
  | .continue hopens hword hsemicolon, n, hn => by
    obtain ⟨n, rfl⟩ : ∃ k, n = k + 1 := ⟨n - 1, by omega⟩
    exact .nested hopens (accepts_word hword (fun _ => rfl) (accepts_continueStatement hsemicolon))
  | .return hopens hword he hsemicolon, n, hn => by
    have hwordLength := hword.begins.length_lt
    obtain ⟨n, rfl⟩ : ∃ k, n = k + 1 := ⟨n - 1, by omega⟩
    have he := accepts_optional he hsemicolon (by decide) (n := n) (by omega)
    exact .nested hopens (accepts_word hword (fun _ => rfl) (accepts_returnStatement he hsemicolon))

theorem accepts_declaration {room : Room} {us vs : List Token} {d : Decl} :
    Declaration True room us d vs → ∀ n, 4 * us.length + 4 ≤ n →
      Accepts (declaration .strict n) room us (fun o => ∃ d', o = some d' ∧ d'.bare = d) vs
  | .class hword hname hsuperclass hopen hmethods hclose, n, hn => by
    have hwordLength := hword.begins.length_lt
    have hnameLength := hname.begins.length_lt
    have hsuperclassLength := hsuperclass.suffix.length_le
    have hopenLength := hopen.begins.length_lt
    obtain ⟨n, rfl⟩ : ∃ k, n = k + 1 := ⟨n - 1, by omega⟩
    have hmethods := accepts_methods hmethods hclose n (by omega)
    exact .recovered (accepts_word hword (fun _ => rfl)
      (accepts_classDeclaration hname hsuperclass hopen hmethods hclose))
  | .function hword hf, n, hn => by
    have hwordLength := hword.begins.length_lt
    obtain ⟨n, rfl⟩ : ∃ k, n = k + 1 := ⟨n - 1, by omega⟩
    refine .recovered (accepts_word hword (fun _ => rfl) fun start => .map Decl.function ?_)
    exact (accepts_function_of_derivation hf n (by omega) "function" start).mono
      fun f hf => congrArg Decl.function hf
  | .var h, n, hn => by
    obtain ⟨n, rfl⟩ : ∃ k, n = k + 1 := ⟨n - 1, by omega⟩
    obtain ⟨ms, hword, hvar⟩ := accepts_varDeclaration_of_derivation h (n := n) (by omega)
    exact .recovered (accepts_word hword (fun _ => rfl) hvar)
  | .statement h, n, hn => by
    obtain ⟨n, rfl⟩ : ∃ k, n = k + 1 := ⟨n - 1, by omega⟩
    refine .recovered (Accepts.here.bind fun start _ => ?_)
    obtain ⟨kind, hmem, hhead⟩ := h.begins.head
    refine Accepts.peek_bind hhead ?_
    have hstatement : Accepts (Decl.stmt <$> statement .strict n) room us (·.bare = .stmt _) vs :=
      .map Decl.stmt ((accepts_statement h n (by omega)).mono fun s hs => congrArg Decl.stmt hs)
    -- whatever a statement begins with, no other declaration begins with it
    simp only [firstOfStatement, firstOfExpression, firstOfCall, List.cons_append, List.nil_append,
      List.mem_cons, List.not_mem_nil, or_false] at hmem
    rcases hmem with rfl | rfl | rfl | rfl | rfl | rfl | rfl | rfl | rfl | rfl | rfl | rfl | rfl |
      rfl | rfl | rfl | rfl | rfl | rfl <;> exact hstatement

theorem accepts_declarations {room : Room} {us vs : List Token} {ds : List Decl}
    {closes : Option Token.Kind → Bool}
    (hfirst : ∀ kind ∈ firstOfDeclaration, closes (some kind) = false)
    (hcloses : closes (vs.head?.map (·.kind)) = true) :
    Declarations True room us ds vs → ∀ n, 4 * us.length + 4 ≤ n → ∀ m, us.length ≤ m →
      Accepts (declarationsFrom (declaration .strict n) closes m) room us (Decl.bareAll · = ds) vs
  | .nil, n, hn, m, hm => by
    cases m with
    | zero => exact .pure rfl
    | succ m =>
        unfold declarationsFrom
        refine Accepts.peek_bind rfl ?_
        rw [hcloses]
        exact .pure rfl
  | .cons hd hds, n, hn, m, hm => by
    have hlength := hd.begins.length_lt
    obtain ⟨m, rfl⟩ : ∃ k, m = k + 1 := ⟨m - 1, by omega⟩
    obtain ⟨kind, hmem, hhead⟩ := hd.begins.head
    unfold declarationsFrom
    refine Accepts.peek_bind hhead ?_
    rw [hfirst kind hmem]
    refine (accepts_declaration hd n hn).bind ?_
    rintro _ ⟨d, rfl, hd⟩
    refine (accepts_declarations hfirst hcloses hds n (by omega) m (by omega)).bind
      fun ds hds => .pure ?_
    rw [← hd, ← hds]
    rfl

theorem accepts_function_of_derivation {room : Room} {us vs : List Token} {f : FunctionDecl} :
    Function True room us f vs → ∀ n, 4 * us.length + 3 ≤ n → ∀ (kind : String) (start : Location),
      Accepts (function .strict (declaration .strict n) kind start) room us (·.bare = f) vs
  | .intro hname hopen hparams hclose hbrace hbody hend, n, hn, kind, start => by
    have hnameLength := hname.begins.length_lt
    have hopenLength := hopen.begins.length_lt
    have hparamsLength := hparams.suffix.length_le
    have hcloseLength := hclose.begins.length_lt
    have hbraceLength := hbrace.begins.length_lt
    have hbody := accepts_body (accepts_declarations not_closesBody_of_first
      (closesBody_of_terminal hend) hbody n (by omega)) hend
    exact accepts_function hname hopen hparams hclose hbrace hbody kind start

theorem accepts_methods {room : Room} {us vs ws : List Token} {fs : List FunctionDecl} :
    Methods True room us fs vs → Terminal .rightBrace vs ws → ∀ n, 4 * us.length + 3 ≤ n →
      ∀ m, us.length ≤ m →
      Accepts (methodsFrom (function .strict (declaration .strict n) "method") m) room us
        (FunctionDecl.bareAll · = fs) vs
  | .nil, hclose, n, hn, m, hm => by
    cases m with
    | zero => exact .pure rfl
    | succ m =>
        unfold methodsFrom
        refine Accepts.peek_bind hclose.head ?_
        exact .pure rfl
  | .cons hf hfs, hclose, n, hn, m, hm => by
    have hlength := hf.begins.length_lt
    obtain ⟨m, rfl⟩ : ∃ k, m = k + 1 := ⟨m - 1, by omega⟩
    obtain ⟨kind, hmem, hhead⟩ := hf.begins.head
    cases List.mem_singleton.1 hmem
    unfold methodsFrom
    refine Accepts.peek_bind hhead (Accepts.here.bind fun start _ => ?_)
    refine (accepts_function_of_derivation hf n hn "method" start).bind fun f hf => ?_
    refine (accepts_methods hfs hclose n (by omega) m (by omega)).bind fun fs hfs => .pure ?_
    rw [← hf, ← hfs]
    rfl

end

theorem accepts_declarations_program {us : List Token} {room : Room} {ds : List Decl}
    (h : Declarations True room us ds []) :
    Accepts (program .strict) room us (fun p => Decl.bareAll p.body = ds) [] := by
  refine Accepts.here.bind fun start _ => Accepts.remaining.bind fun n hn => ?_
  refine (accepts_declarations (by decide) rfl h (recursionBound n)
    (by unfold recursionBound; omega) n (by omega)).bind fun decls hdecls => ?_
  exact Accepts.here.bind fun stop _ => .pure hdecls

/-- **A program that derives all tokens of its source is read.** -/
theorem accepts_program {us : List Token} {n : Nat} {ds : List Decl}
    (h : Declarations True (.levels n) us ds []) (c : Cursor) (hroom : c.room = .levels n)
    (hrest : c.rest = us) :
    ∃ p c', program .strict c = .ok p c' ∧ Decl.bareAll p.body = ds ∧ c'.rest = [] := by
  have hends := accepts_declarations_program h c hroom hrest
  cases hp : program .strict c with
  | error e c' =>
      rw [hp] at hends
      exact nomatch hends.1
  | ok p c' =>
      rw [hp] at hends
      exact ⟨p, c', rfl, hends.1, hends.2.1⟩

/-- **Without a limit the levels are the only obstacle.** A program that derives all tokens of its
source is read, or too many levels are open somewhere. -/
theorem program_ok_or_tooNested {us : List Token} {ds : List Decl}
    (h : Declarations True .unlimited us ds []) (c : Cursor) (hrest : c.rest = us) :
    (∃ p c', program .strict c = .ok p c' ∧ Decl.bareAll p.body = ds) ∨
      ∃ e c', program .strict c = .error e c' ∧ e.cause = .tooNested := by
  have hends := accepts_declarations_program h c trivial hrest
  cases hp : program .strict c with
  | error e c' =>
      rw [hp] at hends
      exact .inr ⟨e, c', rfl, hends.2⟩
  | ok p c' =>
      rw [hp] at hends
      exact .inl ⟨p, c', rfl, hends.1⟩

end Lox.Parsing
