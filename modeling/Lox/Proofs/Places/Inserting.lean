import Lox.Proofs.Places.Parsing
import Lox.Proofs.Scanning.RoundTrip
import Lox.Proofs.Sessions.Compiling

/-!
# A word in front of the first token

When `print` and a space are put in front of the first token of a source text, the text has one token
more. What stood in front of that token stays there: it is white space and comments, and a comment ends
at a line feed that is still there. All other tokens are the same, six units further on, and also six
columns further on as long as they are on the line of the first one.

So a text that is one expression statement becomes one `print` statement with the same expression. The
parser takes it through other productions, but the expression is read by the same one, with the same
number of nesting levels open.

## Contents
- `beforeTokens`, `fromTokens`, `withPrint`: a source text with `print` in it.
- `Location.insertAt`: where its places are then.
- `pieces_withPrint`, `scan_withPrint`: what scanning finds.
- `expressionStatement_of_declaration`: how an expression statement was read.
- `parse_withPrint`: the program.
-/

namespace Lox

open Piece Parsing

/-! ## The text -/

/-- What stands in front of the first token. -/
def beforeTokens (source : List Char) : List Char :=
  ((pieces source).takeWhile (!·.isToken)).flatMap text

/-- What is left from the first token on. -/
def fromTokens (source : List Char) : List Char :=
  ((pieces source).dropWhile (!·.isToken)).flatMap text

/-- The word that is put in, and a space. -/
def printWord : List Char := ['p', 'r', 'i', 'n', 't', ' ']

/-- A source text with `print` in front of its first token. -/
def withPrint (source : List Char) : List Char :=
  beforeTokens source ++ (printWord ++ fromTokens source)

/-- Nothing is lost. -/
theorem beforeTokens_append_fromTokens (source : List Char) :
    beforeTokens source ++ fromTokens source = source := by
  unfold beforeTokens fromTokens
  rw [← List.flatMap_append, List.takeWhile_append_dropWhile, text_pieces]

namespace Piece

theorem beforeTokens_cons (c : Char) (rest : List Char) :
    beforeTokens (c :: rest) =
      if (munch c rest).1.isToken then [] else (munch c rest).1.text ++ beforeTokens (munch c rest).2 := by
  unfold beforeTokens
  rw [pieces_cons, List.takeWhile_cons]
  cases (munch c rest).1.isToken <;> rfl

theorem fromTokens_cons (c : Char) (rest : List Char) :
    fromTokens (c :: rest) =
      if (munch c rest).1.isToken then c :: rest else fromTokens (munch c rest).2 := by
  unfold fromTokens
  rw [pieces_cons, List.dropWhile_cons]
  cases (munch c rest).1.isToken with
  | false => rfl
  | true =>
      show ((munch c rest).1 :: pieces (munch c rest).2).flatMap text = c :: rest
      rw [← pieces_cons, text_pieces]

/-- A blank or a comment in front of a token stays one when something else stands in place of the token
and what follows it: behind the comment there is a line feed. -/
theorem munched_beforeTokens {p : Piece} {rest : List Char} (h : Munched p rest) (hsound : p.Sound)
    (htrivia : p.isToken = false) (htoken : (pieces rest).any isToken = true) (behind : List Char) :
    Munched p (beforeTokens rest ++ behind) := by
  cases h with
  | blank hblank => exact .blank hblank
  | comment hbody hbehind =>
      cases rest with
      | nil =>
          rw [pieces_nil] at htoken
          exact absurd htoken (by decide)
      | cons c rest =>
          have hline : c = '\n' := by simpa using stops_cons.1 hbehind
          subst hline
          have hblank : munch '\n' rest = (⟨.blank, ['\n']⟩, rest) := munch_blank (by decide)
          refine .comment hbody ?_
          rw [beforeTokens_cons, hblank]
          exact stops_cons.2 (by decide)
  | unterminated | badNumber | unexpected => exact absurd rfl (hsound _)
  | string | integer | decimal | word | double | single => exact Bool.noConfusion htrivia

/-- The pieces in front of the first token stay the same in front of any other text, when they were in
front of a token: a comment there is followed by a line feed. -/
theorem pieces_beforeTokens_append {source : List Char} (hsound : ∀ p ∈ pieces source, p.Sound)
    (htoken : (pieces source).any isToken = true) (behind : List Char) :
    pieces (beforeTokens source ++ behind) =
      (pieces source).takeWhile (!·.isToken) ++ pieces behind := by
  fun_induction pieces source with
  | case1 => exact absurd htoken (by decide)
  | case2 c rest ih =>
      obtain ⟨hfirst, hrest⟩ := List.forall_mem_cons.1 hsound
      rw [List.any_cons] at htoken
      rw [beforeTokens_cons, List.takeWhile_cons]
      by_cases hp : (munch c rest).1.isToken = true
      · rw [if_pos hp, hp]
        rfl
      · rw [Bool.not_eq_true] at hp
        rw [hp, Bool.false_or] at htoken
        rw [hp, if_neg Bool.false_ne_true, List.append_assoc]
        have hafter := munched_beforeTokens (munched_munch c rest) hfirst hp htoken behind
        rw [pieces_of_munched hafter, ih hrest htoken]
        rfl

/-- The pieces from the first token on. -/
theorem pieces_fromTokens (source : List Char) :
    pieces (fromTokens source) = (pieces source).dropWhile (!·.isToken) := by
  fun_induction pieces source with
  | case1 =>
      have hnil : fromTokens [] = [] := by rw [fromTokens, pieces_nil]; rfl
      rw [hnil, pieces_nil]
      rfl
  | case2 c rest ih =>
      rw [fromTokens_cons, List.dropWhile_cons]
      by_cases hp : (munch c rest).1.isToken = true
      · rw [if_pos hp, hp, pieces_cons]
        rfl
      · rw [Bool.not_eq_true] at hp
        rw [hp, if_neg Bool.false_ne_true, ih]
        rfl

/-- The pieces of the word that is put in, and of what follows it. -/
theorem pieces_printWord_append (behind : List Char) :
    pieces (printWord ++ behind) =
      ⟨.token .print, ['p', 'r', 'i', 'n', 't']⟩ :: ⟨.blank, [' ']⟩ :: pieces behind := by
  have hstart : isWordStart 'p' = true := by decide
  have hrest : ['r', 'i', 'n', 't'].all isWordChar = true := by decide
  have hword : Munched ⟨.token .print, ['p', 'r', 'i', 'n', 't']⟩ (' ' :: behind) :=
    .word hstart (List.all_eq_true.1 hrest) (stops_cons.2 (by decide))
  have hspace : Munched ⟨.blank, [' ']⟩ behind := .blank (by decide)
  exact (pieces_of_munched hword).trans (congrArg _ (pieces_of_munched hspace))

/-- **The pieces of the text with the word in it.** -/
theorem pieces_withPrint {source : List Char} (hsound : ∀ p ∈ pieces source, p.Sound)
    (htoken : (pieces source).any isToken = true) :
    pieces (withPrint source) =
      (pieces source).takeWhile (!·.isToken) ++
        ⟨.token .print, ['p', 'r', 'i', 'n', 't']⟩ :: ⟨.blank, [' ']⟩ ::
          (pieces source).dropWhile (!·.isToken) := by
  unfold withPrint
  rw [pieces_beforeTokens_append hsound htoken, pieces_printWord_append, pieces_fromTokens]

/-- White space and comments are no tokens. -/
theorem tokensAt_takeWhile (l : Location) (ps : List Piece) :
    tokensAt l (ps.takeWhile (!·.isToken)) = [] := by
  induction ps generalizing l with
  | nil => rfl
  | cons p ps ih =>
      rw [List.takeWhile_cons]
      by_cases hp : p.isToken = true
      · rw [hp]
        rfl
      · rw [Bool.not_eq_true] at hp
        have hkind : p.kind? = none := Option.isSome_eq_false_iff.1 hp |> Option.isNone_iff_eq_none.1
        have hnone : p.token? l = none := Option.map_eq_none_iff.1 ((map_kind_token? l p).trans hkind)
        rw [hp]
        show tokensAt l (p :: ps.takeWhile (!·.isToken)) = []
        rw [tokensAt_cons, hnone, ih]
        rfl

end Piece

/-! ## Places -/

namespace Location

/-- Where a place is once six units have been put in at `first`: nothing in front of `first` moves. -/
def insertAt (first l : Location) : Location :=
  if l.offset < first.offset then l
  else ⟨l.line, if l.line = first.line then l.column + 6 else l.column, l.offset + 6⟩

/-- A place that is not in front of `first`. -/
structure From (first l : Location) : Prop where
  offset : first.offset ≤ l.offset
  line : first.line ≤ l.line

variable {first l : Location}

theorem From.refl (first : Location) : From first first := ⟨Nat.le_refl _, Nat.le_refl _⟩

theorem From.advance (h : From first l) (c : Char) : From first (l.advance c) := by
  obtain ⟨hoffset, hline⟩ := h
  refine ⟨?_, ?_⟩
  · rw [offset_advance]
    omega
  · unfold Location.advance
    split
    · exact Nat.le_succ_of_le hline
    · exact hline

theorem From.after (h : From first l) (cs : List Char) : From first (l.after cs) := by
  induction cs generalizing l with
  | nil => exact h
  | cons c cs ih => exact ih (h.advance c)

/-- A place from `first` on is further on by six units. -/
theorem From.insertAt_eq (h : From first l) :
    insertAt first l = ⟨l.line, if l.line = first.line then l.column + 6 else l.column,
      l.offset + 6⟩ := by
  unfold insertAt
  rw [if_neg (Nat.not_lt.2 h.offset)]

/-- A line feed ends the line of `first`, so behind it the columns are what they were. -/
theorem From.advance_insertAt (h : From first l) (c : Char) :
    (insertAt first l).advance c = insertAt first (l.advance c) := by
  rw [(h.advance c).insertAt_eq, h.insertAt_eq]
  have hline := h.line
  unfold Location.advance
  by_cases hc : c = '\n'
  · have hbehind : l.line + 1 ≠ first.line := by omega
    simp only [hc, if_true, if_neg hbehind, mk.injEq, true_and]
    omega
  · simp only [hc, if_false, mk.injEq, true_and]
    refine ⟨?_, by omega⟩
    split <;> omega

theorem From.after_insertAt (h : From first l) (cs : List Char) :
    (insertAt first l).after cs = insertAt first (l.after cs) := by
  induction cs generalizing l with
  | nil => rfl
  | cons c cs ih => rw [after_cons, after_cons, h.advance_insertAt, ih (h.advance c)]

/-- The place behind the word that is put in. -/
theorem after_printWord (first : Location) : first.after printWord = insertAt first first := by
  rw [(From.refl first).insertAt_eq, if_pos rfl]
  rfl

end Location

open Location

/-- Where the first token begins. -/
def firstPlace (source : List Char) : Location := Location.start.after (beforeTokens source)

theorem Piece.tokensAt_insertAt {first l : Location} (h : From first l) (ps : List Piece) :
    tokensAt (insertAt first l) ps = (tokensAt l ps).map (·.relocate (insertAt first)) := by
  induction ps generalizing l with
  | nil => rfl
  | cons p ps ih =>
      rw [tokensAt_cons, tokensAt_cons, h.after_insertAt, ih (h.after p.text), List.map_append]
      congr 1
      unfold token?
      split
      · rw [h.after_insertAt]
        rfl
      · rfl

/-- The token that is put in. -/
def printToken (first : Location) : Token :=
  ⟨.print, String.ofList ['p', 'r', 'i', 'n', 't'], ⟨first, first.after ['p', 'r', 'i', 'n', 't']⟩⟩

/-- **What scanning finds**: one token more, and the others further on. -/
theorem scan_withPrint {source : List Char} (hlexical : (scan source).errors = [])
    (htokens : (scan source).tokens ≠ []) :
    (scan (withPrint source)).errors = [] ∧
      (scan (withPrint source)).tokens = printToken (firstPlace source) ::
        (scan source).tokens.map (·.relocate (insertAt (firstPlace source))) := by
  have hsound := (scan_errors_eq_nil_iff source).1 hlexical
  -- there is a first token for the word to stand in front of
  have htoken : (pieces source).any isToken = true := by
    by_contra hnone
    rw [Bool.not_eq_true, List.any_eq_false] at hnone
    have hall : (pieces source).takeWhile (!·.isToken) = pieces source :=
      List.takeWhile_eq_self_iff.2 fun p hp => by simpa using hnone p hp
    have hnil := tokensAt_takeWhile .start (pieces source)
    rw [hall] at hnil
    exact htokens hnil
  have hpieces := pieces_withPrint hsound htoken
  refine ⟨?_, ?_⟩
  · rw [scan_errors_eq_nil_iff, hpieces]
    intro p hp
    rw [List.mem_append, List.mem_cons, List.mem_cons] at hp
    rcases hp with hp | rfl | rfl | hp
    · exact hsound p ((List.takeWhile_subset _) hp)
    · exact nofun
    · exact nofun
    · exact hsound p ((List.dropWhile_subset _) hp)
  · have hhere : (scan source).tokens =
        tokensAt (firstPlace source) ((pieces source).dropWhile (!·.isToken)) := by
      show tokensAt .start (pieces source) = _
      conv_lhs => rw [← List.takeWhile_append_dropWhile (p := (!·.isToken)) (l := pieces source)]
      rw [tokensAt_append, tokensAt_takeWhile]
      rfl
    show tokensAt .start (pieces (withPrint source)) = _
    rw [hpieces, tokensAt_append, tokensAt_takeWhile, List.nil_append, tokensAt_cons, tokensAt_cons,
      hhere, ← tokensAt_insertAt (From.refl _), ← after_printWord]
    rfl

/-! ## The program -/

namespace Parsing

/-- All that a parser makes has a property. -/
def Makes {α : Type} (P : α → Prop) (p : Parser α) : Prop := ∀ c a c', p c = .ok a c' → P a

theorem Makes.pure {α : Type} {P : α → Prop} {a : α} (h : P a) : Makes P (pure a) := by
  rintro c _ c' ⟨⟩
  exact h

theorem Makes.bind {α β : Type} {P : β → Prop} {p : Parser α} {k : α → Parser β}
    (h : ∀ a, Makes P (k a)) : Makes P (p >>= k) := by
  intro c b c' hb
  obtain ⟨a, c₁, -, hk⟩ := ok_of_bind hb
  exact h a c₁ b c' hk

theorem Makes.map {α β : Type} {P : β → Prop} {p : Parser α} {f : α → β} (h : ∀ a, P (f a)) :
    Makes P (f <$> p) := by
  intro c b c' hb
  obtain ⟨a, c₁, -, hk⟩ := ok_of_bind (f := fun a => Pure.pure (f a)) hb
  cases hk
  exact h a

/-- A declaration that is no expression statement. -/
def IsOther (d : Decl) : Prop := d.isExpression = false

/-- A statement that is no expression statement. -/
def IsOtherStmt (s : Stmt) : Prop := IsOther (.stmt s)

theorem not_isOther_expression {e : Expr} {span : Span} : ¬ IsOtherStmt (.expression e span) :=
  fun h => Bool.noConfusion h

section

variable (p : Parser Expr) (q : Parser Stmt) (r : Parser (Option Decl)) (start : Location)

theorem isOther_print : Makes IsOtherStmt (printStatement p start) :=
  .bind fun _ => .bind fun _ => .bind fun _ => .pure rfl

theorem isOther_block : Makes IsOtherStmt (blockStatement r start) :=
  .bind fun _ => .bind fun _ => .pure rfl

theorem isOther_if : Makes IsOtherStmt (ifStatement p q start) := by
  unfold ifStatement
  repeat refine Makes.bind fun _ => ?_
  dsimp only
  split <;> exact .bind fun _ => .bind fun _ => .pure rfl

theorem isOther_while : Makes IsOtherStmt (whileStatement p q start) := by
  unfold whileStatement
  repeat refine Makes.bind fun _ => ?_
  exact .pure rfl

theorem isOther_for : Makes IsOtherStmt (forStatement p q start) := by
  unfold forStatement
  repeat refine Makes.bind fun _ => ?_
  exact .pure rfl

theorem isOther_return : Makes IsOtherStmt (returnStatement p start) :=
  .bind fun _ => .bind fun _ => .bind fun _ => .pure rfl

theorem isOther_break : Makes IsOtherStmt (breakStatement start) :=
  .bind fun _ => .bind fun _ => .pure rfl

theorem isOther_continue : Makes IsOtherStmt (continueStatement start) :=
  .bind fun _ => .bind fun _ => .pure rfl

theorem isOther_function (f : Parser FunctionDecl) : Makes IsOther (Decl.function <$> f) :=
  .map fun _ => rfl

theorem isOther_class : Makes IsOther (classDeclaration .strict r start) := by
  unfold classDeclaration
  repeat refine Makes.bind fun _ => ?_
  exact .pure rfl

theorem isOther_var : Makes IsOther (varDeclaration p start) := by
  unfold varDeclaration
  repeat refine Makes.bind fun _ => ?_
  dsimp only
  split <;> exact .bind fun _ => .bind fun _ => .bind fun _ => .pure rfl

end

section

variable {p : Parser Expr} {q : Parser Stmt} {r : Parser (Option Decl)} {c c' : Cursor}

/-- A statement is chosen by the kind of its first token. -/
theorem statementWith_eq : statementWith p q r c =
    (match c.kind? with
    | some .print => do advance; printStatement p c.here
    | some .leftBrace => do advance; blockStatement r c.here
    | some .if => do advance; ifStatement p q c.here
    | some .while => do advance; whileStatement p q c.here
    | some .for => do advance; forStatement p q c.here
    | some .return => do advance; returnStatement p c.here
    | some .break => do advance; breakStatement c.here
    | some .continue => do advance; continueStatement c.here
    | _ => expressionStatement p) c := rfl

/-- An expression statement is what stands behind no word for another statement. -/
theorem expressionStatement_of_statementWith {made : Stmt} (hmade : ¬ IsOtherStmt made)
    (h : statementWith p q r c = .ok made c') : expressionStatement p c = .ok made c' := by
  have other {p' : Parser Stmt} (hother : Makes IsOtherStmt p') (hrun : p' c = .ok made c') :
      expressionStatement p c = .ok made c' := absurd (hother c made c' hrun) hmade
  rw [statementWith_eq] at h
  generalize c.kind? = kind at h
  rcases kind with _ | kind
  · exact h
  cases kind with
  | print => exact other (.bind fun _ => isOther_print p c.here) h
  | leftBrace => exact other (.bind fun _ => isOther_block r c.here) h
  | «if» => exact other (.bind fun _ => isOther_if p q c.here) h
  | «while» => exact other (.bind fun _ => isOther_while p q c.here) h
  | «for» => exact other (.bind fun _ => isOther_for p q c.here) h
  | «return» => exact other (.bind fun _ => isOther_return p c.here) h
  | «break» => exact other (.bind fun _ => isOther_break c.here) h
  | «continue» => exact other (.bind fun _ => isOther_continue c.here) h
  | _ => exact h

/-- **An expression behind `print`** is read as it is in front of a semicolon alone: the tokens are the
same, further on, and as many levels are open. -/
theorem printStatement_of_expressionStatement {s : Placing} {p' : Parser Expr} {d : Cursor} {e : Expr}
    {span : Span} (hexpression : Carries s true true (·.relocate s.move) p p')
    (h : expressionStatement p c = .ok (.expression e span) c') (hd : Carried s c d)
    (start : Location) :
    ∃ span' d', printStatement p' start d = .ok (.print (e.relocate s.move) span') d' ∧
      Carried s c' d' := by
  obtain ⟨begun, c₀, hbegun, h⟩ := ok_of_bind h
  cases hbegun
  obtain ⟨value, c₁, hvalue, h⟩ := ok_of_bind h
  obtain ⟨semicolon, c₂, hsemicolon, h⟩ := ok_of_bind h
  cases h
  -- the semicolon is still to come behind the expression
  obtain ⟨hpassed, hcarries⟩ := CarriesAt.expect (s := s) .semicolon "';' after expression" _ _ hsemicolon
  obtain ⟨-, hvalue'⟩ := hexpression _ _ _ hvalue
  obtain ⟨d₁, hrun, hd₁⟩ := hvalue' (fun _ => hpassed.rest_ne_nil) d hd
  obtain ⟨d₂, hrun', hd₂⟩ := hcarries nofun d₁ hd₁
  have hexpect : Parsing.expect .semicolon "';' after value" d₁ =
      .ok (semicolon.relocate s.move) d₂ := expect_ok_congr hrun'
  refine ⟨⟨start, d₂.reached⟩, d₂, ?_, hd₂⟩
  unfold printStatement
  rw [bind_of_ok hrun, bind_of_ok hexpect]
  rfl

/-- A declaration is chosen by the kind of its first token. -/
theorem declarationWith_eq : declarationWith .strict p q r c =
    (match c.kind? with
    | some .class => do advance; classDeclaration .strict r c.here
    | some .fun => do advance; .function <$> Parsing.function .strict r "function" c.here
    | some .var => do advance; varDeclaration p c.here
    | _ => .stmt <$> q) c := rfl

/-- A statement is what stands behind no word for a declaration. -/
theorem statement_of_declarationWith {made : Stmt} (hmade : ¬ IsOtherStmt made)
    (h : declarationWith .strict p q r c = .ok (.stmt made) c') : q c = .ok made c' := by
  have other {p' : Parser Decl} (hother : Makes IsOther p') (hrun : p' c = .ok (.stmt made) c') :
      q c = .ok made c' := absurd (hother c _ c' hrun) hmade
  have statement (hrun : (Decl.stmt <$> q) c = .ok (.stmt made) c') : q c = .ok made c' := by
    obtain ⟨made', c₁, hq, hk⟩ := ok_of_bind (f := fun s => Pure.pure (Decl.stmt s)) hrun
    cases hk
    exact hq
  rw [declarationWith_eq] at h
  generalize c.kind? = kind at h
  rcases kind with _ | kind
  · exact statement h
  cases kind with
  | «class» => exact other (.bind fun _ => isOther_class r c.here) h
  | «fun» => exact other (.bind fun _ => isOther_function _) h
  | var => exact other (.bind fun _ => isOther_var p c.here) h
  | _ => exact statement h

/-- A declaration that is an expression statement was read as one. -/
theorem expressionStatement_of_declaration {n : Nat} {made : Stmt} (hmade : ¬ IsOtherStmt made)
    (h : declaration .strict n c = .ok (some (.stmt made)) c') :
    ∃ m, n = m + 2 ∧
      nested (expressionStatement (assignment .strict m)) c = .ok made c' := by
  cases n with
  | zero => exact nomatch h
  | succ n =>
      have hdecl : declarationWith .strict (assignment .strict n) (statement .strict n)
          (declaration .strict n) c = .ok (.stmt made) c' := by
        rw [declaration] at h
        obtain ⟨made', hmade', hok⟩ := ok_of_recovered h
        cases hmade'
        exact hok
      have hstatement := statement_of_declarationWith hmade hdecl
      cases n with
      | zero => exact nomatch hstatement
      | succ n =>
          obtain ⟨hdepth, c₁, hinner, rfl⟩ := nested_ok_iff.1 hstatement
          have hexpression := expressionStatement_of_statementWith hmade hinner
          exact ⟨n, rfl, nested_ok_iff.2 ⟨hdepth, c₁, hexpression, rfl⟩⟩

/-- **A declaration behind `print`** is a `print` statement when it is an expression statement without
the word. -/
theorem declaration_behind_print {s : Placing} {n n' : Nat} {d : Cursor} {e : Expr} {span : Span}
    (hle : n ≤ n') (h : declaration .strict n c = .ok (some (.stmt (.expression e span))) c')
    (hprint : d.kind? = some .print) (hd : Carried s c d.advance) :
    ∃ span' d', declaration .strict n' d =
        .ok (some (.stmt (.print (e.relocate s.move) span'))) d' ∧ Carried s c' d' := by
  obtain ⟨m, rfl, hnested⟩ := expressionStatement_of_declaration not_isOther_expression h
  obtain ⟨k, rfl⟩ : ∃ k, n' = k + 2 := ⟨n' - 2, by omega⟩
  obtain ⟨hdepth, c₁, hexpression, rfl⟩ := nested_ok_iff.1 hnested
  have hcarries := (Carries.assignment_unary (s := s) (Nat.le_of_add_le_add_right hle)).1
  obtain ⟨t, ts, hrest, -⟩ := Cursor.exists_cons_of_kind? hprint
  have hadvance := Cursor.advance_of_cons hrest
  have hroom : d.depth = c.depth := by
    have hdepth' := hd.depth
    rw [hadvance] at hdepth'
    exact hdepth'
  have hinside : Carried s { c with depth := c.depth + 1 } { d with depth := d.depth + 1 }.advance := by
    have hadvance' : ({ d with depth := d.depth + 1 } : Cursor).advance =
        { d.advance with depth := d.depth + 1 } := by
      rw [hadvance]
      exact Cursor.advance_of_cons hrest
    rw [hadvance']
    exact ⟨hd.rest, congrArg (· + 1) hroom, hd.previous⟩
  obtain ⟨span', d₁, hrun, hd₁⟩ :=
    printStatement_of_expressionStatement hcarries hexpression hinside d.here
  have hstatement : statement .strict (k + 1) d = .ok (.print (e.relocate s.move) span')
      { d₁ with depth := d₁.depth - 1 } := by
    refine nested_ok_iff.2 ⟨hroom ▸ hdepth, d₁, ?_, rfl⟩
    have hkind : Cursor.kind? { d with depth := d.depth + 1 } = some .print := hprint
    rw [statementWith_eq, hkind]
    exact hrun
  refine ⟨span', { d₁ with depth := d₁.depth - 1 }, ?_,
    ⟨hd₁.rest, congrArg (· - 1) hd₁.depth, hd₁.previous⟩⟩
  have hdecl : declarationWith .strict (assignment .strict (k + 1)) (statement .strict (k + 1))
      (declaration .strict (k + 1)) d = .ok (.stmt (.print (e.relocate s.move) span'))
        { d₁ with depth := d₁.depth - 1 } := by
    rw [declarationWith_eq, hprint]
    exact bind_of_ok (f := fun made => Pure.pure (Decl.stmt made)) hstatement
  rw [declaration]
  exact recovered_of_ok hdecl

/-- The first error ends a parse that does not recover, so it leaves no declaration out. -/
theorem exists_of_declaration_ok {n : Nat} {o : Option Decl} (h : declaration .strict n c = .ok o c') :
    ∃ made, o = some made := by
  cases n with
  | zero => exact nomatch h
  | succ n =>
      rw [declaration] at h
      obtain ⟨made, hmade, -⟩ := ok_of_recovered h
      exact ⟨made, hmade⟩

/-- A single declaration, with nothing behind it. -/
theorem declaration_of_single {n m : Nat} {made : Decl} (hbound : c.rest.length ≤ m)
    (h : declarationsFrom (declaration .strict n) (·.isNone) m c = .ok [made] c') :
    declaration .strict n c = .ok (some made) c' ∧ c'.rest = [] := by
  by_cases hnil : c.rest = []
  · rw [declarationsFrom_end m hnil] at h
    cases h
  have hpos := List.length_pos_iff.2 hnil
  obtain ⟨m, rfl⟩ : ∃ k, m = k + 1 := ⟨m - 1, by omega⟩
  rw [declarationsFrom_succ m hnil] at h
  obtain ⟨first, c₁, hfirst, h⟩ := ok_of_bind h
  obtain ⟨others, c₂, hothers, h⟩ := ok_of_bind h
  obtain ⟨d, rfl⟩ := exists_of_declaration_ok hfirst
  cases h
  by_cases hend : c₁.rest = []
  · rw [declarationsFrom_end m hend] at hothers
    cases hothers
    exact ⟨hfirst, hend⟩
  · -- another declaration would be read
    have hpassed := ((Carries.statement_declaration (s := ⟨id, []⟩) nofun (Nat.le_refl n)).2 c _ _ hfirst).1
    have hlt := hpassed.lt
    have hpos₁ := List.length_pos_iff.2 hend
    obtain ⟨m, rfl⟩ : ∃ k, m = k + 1 := ⟨m - 1, by omega⟩
    rw [declarationsFrom_succ m hend] at hothers
    obtain ⟨second, c₃, hsecond, hothers⟩ := ok_of_bind hothers
    obtain ⟨later, c₄, -, hothers⟩ := ok_of_bind hothers
    obtain ⟨d', rfl⟩ := exists_of_declaration_ok hsecond
    cases hothers

end

end Parsing

/-- **A single expression statement behind `print`** is a single `print` statement, with the same
expression further on. -/
theorem parse_withPrint {source : List Char} {P : Program} {e : Expr} {span : Span}
    (hP : Program.parse source = .ok P) (hbody : P.body = [.stmt (.expression e span)]) :
    ∃ R span', Program.parse (withPrint source) = .ok R ∧
      R.body = [.stmt (.print (e.relocate (insertAt (firstPlace source))) span')] := by
  obtain ⟨hlexical, c, hprogram⟩ := (parse_ok_iff source P).1 hP
  have hdecls := (program_ok_iff _).1 ⟨P, hprogram, hbody⟩
  obtain ⟨hdecl, hend⟩ := declaration_of_single (Nat.le_refl _) hdecls
  have htokens : (scan source).tokens ≠ [] := by
    have hpassed := ((Carries.statement_declaration (s := ⟨id, []⟩) nofun (Nat.le_refl _)).2 _ _ _ hdecl).1
    exact hpassed.rest_ne_nil
  obtain ⟨hlexical', htokens'⟩ := scan_withPrint hlexical htokens
  -- behind the word, the cursor is that of the source alone, at places further on
  let s : Placing := ⟨insertAt (firstPlace source), []⟩
  let d := Cursor.ofScan (scan (withPrint source))
  have hrest : d.rest = printToken (firstPlace source) :: (scan source).tokens.map (·.relocate s.move) :=
    htokens'
  have hadvance : d.advance = { d with
      previous := some (printToken (firstPlace source)),
      rest := (scan source).tokens.map (·.relocate s.move) } := Cursor.advance_of_cons hrest
  have hcarried : Carried s (Cursor.ofScan (scan source)) d.advance := by
    rw [hadvance]
    exact ⟨(List.append_nil _).symm, rfl, nofun⟩
  have hprint : d.kind? = some .print := Cursor.kind?_of_cons hrest
  have hlength : d.rest.length = (scan source).tokens.length + 1 := by
    rw [hrest, List.length_cons, List.length_map]
  have hle : recursionBound (scan source).tokens.length ≤ recursionBound d.rest.length := by
    unfold recursionBound
    omega
  obtain ⟨span', d', hdecl', hd'⟩ := declaration_behind_print hle hdecl hprint hcarried
  have hend' : d'.rest = [] := by
    rw [hd'.rest, hend]
    rfl
  have hdecls' : declarationsFrom (declaration .strict (recursionBound d.rest.length)) (·.isNone)
      d.rest.length d = .ok [.stmt (.print (e.relocate s.move) span')] d' := by
    have hne : d.rest ≠ [] := by
      rw [hrest]
      exact List.cons_ne_nil _ _
    conv_lhs => arg 3; rw [hlength]
    rw [declarationsFrom_succ _ hne, bind_of_ok hdecl', bind_of_ok (declarationsFrom_end _ hend')]
    rfl
  obtain ⟨R, hR, hRbody⟩ := (program_ok_iff _).2 hdecls'
  exact ⟨R, span', (parse_ok_iff _ R).2 ⟨hlexical', d', hR⟩, hRbody⟩

end Lox
