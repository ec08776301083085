import Lox.Proofs.Spans.Statements
import Lox.Proofs.Spans.Slices
import Lox.Proofs.Parsing.Acceptance

/-!
# Spans are exact

The span of a node goes from the start of a token to the end of a token, and lies inside the span of the
node above. The text under the span of an expression is that expression again, whatever level of
precedence it was read at and however deep it stood: as an initializer it stands at the loosest level
and less deep.

## Contents
- `OnTokens`: spans from token to token.
- `Reparses`: the text of an expression, read as an initializer.
- `reparses_of_derives`: the tokens of an expression as an initializer.
- `Exact`, `Laid.exact`: nodes with exact spans.
- `spans_exact`: the spans of a program.
-/

namespace Lox.Spans

open Grammar Parsing Resolving

/-- The span goes from the start of a token to the end of a token. The last token is the end of the
source, which has no characters. -/
def OnTokens (s : Scan) (span : Span) : Prop :=
  span.start ∈ s.tokens.map (·.span.start) ++ [s.finish] ∧
    span.stop ∈ s.tokens.map (·.span.stop) ++ [s.finish]

/-- The text under the span of an expression, as an initializer, is read as the same expression. -/
def Reparses (source : List Char) (e : Expr) : Prop :=
  ∃ text, Slices source e.span text ∧ ∃ p e' span,
    Program.parse (declaring text) = .ok p ∧ p.body = [.var "v" (some e') span] ∧ e'.bare = e.bare

section

variable {source : List Char} {us : List Token} {span : Span} {t : Subtree}

theorem Covers.onTokens {s : Scan} (h : Covers us span) (hin : us <:+: s.tokens) :
    OnTokens s span := by
  obtain ⟨first, last, hfirst, hlast, rfl⟩ := h
  have hmem (t : Token) (ht : t ∈ us) : t ∈ s.tokens := hin.subset ht
  constructor
  · exact List.mem_append_left _ (List.mem_map_of_mem (hmem _ (List.mem_of_head? hfirst)))
  · exact List.mem_append_left _ (List.mem_map_of_mem (hmem _ (List.mem_of_getLast? hlast)))

/-! ## Expressions as initializers -/

/-- The tokens of an expression derive it wherever they are spelled in the same way. -/
theorem Derives.spelled {e : Expr} (h : Derives us e) {us' : List Token}
    (hspelled : us'.map spelling = us.map spelling) : Derives us' e := by
  obtain ⟨ts, hts, hderives⟩ := assignment_spelled (h [])
  obtain rfl : us = ts := List.append_cancel_right hts
  exact fun vs => hderives (.levels maxNesting) us' vs (.levels (Nat.le_refl _)) hspelled

/-- A body of one declaration, with places. -/
theorem eq_var_of_bareAll {ds : List Decl} {name : String} {e : Expr}
    (h : Decl.bareAll ds = [.var name (some e) bare]) :
    ∃ e' span, ds = [.var name (some e') span] ∧ e'.bare = e := by
  cases ds with
  | nil => exact nomatch h
  | cons d ds =>
      obtain ⟨hd, hds⟩ := List.cons.inj h
      cases ds with
      | cons d' ds => exact nomatch hds
      | nil =>
          cases d with
          | var name' initial span =>
              obtain ⟨rfl, hinitial, _⟩ := Decl.var.inj hd
              obtain ⟨e', rfl, he'⟩ := Option.map_eq_some_iff.1 hinitial
              exact ⟨e', span, rfl, he'⟩
          | function | «class» | stmt => exact nomatch hd

/-- **The text of an expression as an initializer** is read as the expression. -/
theorem reparses_of_derives (hsource : (scan source).errors = []) {e : Expr}
    (hin : us <:+: (scan source).tokens) (hcovers : Covers us e.span) (h : Derives us e) :
    Reparses source e := by
  obtain ⟨as, bs, htokens⟩ := hin
  obtain ⟨text, hslices, herrors, word, name, equal, us', semicolon, htokens', hspelling, hspelled⟩ :=
    exists_declaring hsource htokens.symm hcovers
  obtain ⟨hword, hname, hequal, hsemicolon⟩ : spelling word = (.var, "var") ∧
      spelling name = (.identifier, "v") ∧ spelling equal = (.equal, "=") ∧
        spelling semicolon = (.semicolon, ";") := by
    simpa using hspelling
  have hreads : Declarations True (.levels maxNesting) (scan (declaring text)).tokens
      [.var "v" (some e.bare) bare] [] := by
    rw [htokens', ← (Prod.mk.inj hname).2]
    refine .cons (.var (.initialized (.intro (Prod.mk.inj hword).1) (.intro (Prod.mk.inj hname).1)
      (.intro (Prod.mk.inj hequal).1) ?_ (.intro (Prod.mk.inj hsemicolon).1))) .nil
    -- the tokens derive the expression at depth zero, whatever depth it was read at
    exact h.spelled hspelled [semicolon]
  obtain ⟨p, c, hprogram, hbody, _⟩ :=
    accepts_program hreads (Cursor.ofScan (scan (declaring text))) rfl rfl
  obtain ⟨e', span, hp, he'⟩ := eq_var_of_bareAll hbody
  exact ⟨text, hslices, p, e', span, (parse_ok_iff _ p).2 ⟨herrors, c, hprogram⟩, hp, he'⟩

/-! ## Nodes -/

/-- The spans of a node, its parameters and its children are exact. -/
structure Exact (source : List Char) (t : Subtree) : Prop where
  onTokens : OnTokens (scan source) (spanOf t)
  params : ∀ p ∈ paramsOf t, OnTokens (scan source) p.span ∧ Within p.span (spanOf t)
  children : ∀ i inner c, t.child? i = some (inner, c) → Within (spanOf c) (spanOf t)
  /-- The text of an expression is that expression again, unless nobody wrote it. -/
  expressions : ∀ i inner c, t.child? i = some (inner, c) →
    ∀ e, exprOf? c = some e → ¬Supplied t e → Reparses source e

theorem spanOf_exprOf? {c : Subtree} {e : Expr} (h : exprOf? c = some e) : spanOf c = e.span := by
  cases c with
  | superclass | expr => exact Option.some.inj h ▸ rfl
  | program | decl | stmt | method => exact nomatch h

/-- A node that is laid on tokens of the source. -/
theorem Laid.exact (hsource : (scan source).errors = []) (h : Laid us t)
    (hin : us <:+: (scan source).tokens) : Exact source t := by
  have hwithin {vs : List Token} {inner : Span} (hvs : vs <:+: us) (hcovers : Covers vs inner) :
      Within inner (spanOf t) := by
    obtain ⟨as, bs, htokens⟩ := hin
    exact Covers.within htokens.symm h.covers hvs hcovers
  refine ⟨h.covers.onTokens hin, fun p hp => ?_, fun i inner c hchild => ?_,
    fun i inner c hchild e he hsupplied => ?_⟩
  · obtain ⟨vs, hvs, hcovers⟩ := h.params p hp
    exact ⟨hcovers.onTokens (hvs.trans hin), hwithin hvs hcovers⟩
  · obtain ⟨vs, hvs, hlaid, _⟩ := h.child hchild
    exact hwithin hvs hlaid.covers
  · obtain ⟨vs, hvs, hlaid, hderives⟩ := h.child hchild
    have hcovers := hlaid.covers
    rw [spanOf_exprOf? he] at hcovers
    exact reparses_of_derives hsource (hvs.trans hin) hcovers (hderives e he hsupplied)

/-- A whole program goes from the first token to the end of the source. -/
theorem within_program (h : Covers us span) (hin : us <:+: (scan source).tokens) :
    Within span ⟨(Cursor.ofScan (scan source)).here, (scan source).finish⟩ := by
  obtain ⟨as, bs, htokens⟩ := hin
  constructor
  · cases hall : (scan source).tokens with
    | nil =>
        obtain ⟨first, _, hfirst, _⟩ := h
        rw [hall, List.append_eq_nil_iff, List.append_eq_nil_iff] at htokens
        rw [htokens.1.2] at hfirst
        exact nomatch hfirst
    | cons t ts =>
        have hcovers : Covers (t :: ts) ⟨t.span.start, _⟩ := ⟨t, _, rfl, List.getLast?_cons, rfl⟩
        have hscan : Piece.tokensAt .start (Piece.pieces source) = [] ++ (t :: ts) ++ [] :=
          hall.trans (List.append_nil _).symm
        rw [hall] at htokens
        have hwithin := Covers.within hscan hcovers ⟨as, bs, htokens⟩ h
        unfold Cursor.here
        rw [show (Cursor.ofScan (scan source)).rest = t :: ts from hall]
        exact hwithin.1
  · obtain ⟨ps₁, qs, q, ps₂, hps, -, -, rfl⟩ := exists_pieces htokens.symm h
    show (Location.start.after _).offset ≤ (Location.start.after source).offset
    rw [← Piece.text_pieces source, hps]
    simp only [Location.offset_after, List.flatMap_append, Text.width_append]
    omega

theorem onTokens_program (s : Scan) : OnTokens s ⟨(Cursor.ofScan s).here, s.finish⟩ := by
  refine ⟨?_, List.mem_append_right _ List.mem_cons_self⟩
  obtain ⟨tokens, finish, errors⟩ := s
  cases tokens with
  | nil => exact List.mem_cons_self
  | cons t ts => exact List.mem_cons_self

end

end Lox.Spans

namespace Lox

open Spans Resolving Parsing

/-! ## Main result -/

/-- **Spans are exact.** In the program of any source text, the span of every node goes from the start
of a token to the end of a token, and it lies inside the span of the node above. The text under the span
of every expression, supplied conditions apart, is read as the same expression when it is the
initializer of a variable. -/
theorem spans_exact {source : List Char} {p : Program} (h : Program.parse source = .ok p)
    {way : List Nat} {around : List Enclosure} {t : Subtree} (hat : p.at? way = some (around, t)) :
    Exact source t := by
  obtain ⟨hsource, c, hprogram⟩ := (parse_ok_iff source p).1 h
  obtain ⟨hspan, hbody⟩ := program_laid hprogram
  -- the program has a span of its own; what is below it was laid on tokens when it was read
  have hchild (i : Nat) (inner : List Enclosure) (d : Subtree)
      (hd : (Subtree.program p).child? i = some (inner, d)) :
      exprOf? d = none ∧ ∃ us, us <:+: (scan source).tokens ∧ Laid us d := by
    obtain ⟨decl, hdecl, heq⟩ := Option.map_eq_some_iff.1 hd
    cases heq
    exact ⟨Laid.exprOf?_ofDecl decl, hbody decl (List.mem_of_getElem? hdecl)⟩
  cases way with
  | nil =>
      cases hat
      refine ⟨?_, fun q hq => absurd hq List.not_mem_nil, fun i inner d hd => ?_,
        fun i inner d hd e he => ?_⟩
      · show OnTokens (scan source) p.span
        rw [hspan]
        exact onTokens_program _
      · obtain ⟨_, us, hus, hlaid⟩ := hchild i inner d hd
        show Within (spanOf d) p.span
        rw [hspan]
        exact within_program hlaid.covers hus
      · rw [(hchild i inner d hd).1] at he
        exact nomatch he
  | cons i way =>
      cases hd : (Subtree.program p).child? i with
      | none =>
          rw [Program.at?, Subtree.at?_cons_of_none _ hd] at hat
          exact nomatch hat
      | some child =>
          obtain ⟨inner, d⟩ := child
          rw [Program.at?, Subtree.at?_cons_of_child _ hd] at hat
          obtain ⟨_, us, hus, hlaid⟩ := hchild i inner d hd
          obtain ⟨vs, hvs, hlaid'⟩ := hlaid.at? hat
          exact hlaid'.exact hsource (hvs.trans hus)

/-- A sign in a loop without a condition. -/
def signSource : List Char := "for (;;) -a.b;".toList

/-- From one offset of the first line up to another. -/
def stretch (i j : Nat) : Span := ⟨⟨1, i + 1, i⟩, ⟨1, j + 1, j⟩⟩

/-- The operand of the sign is the text `a.b`. -/
theorem spans_exact_of_sign :
    ∃ p around t inner c e, Program.parse signSource = .ok p ∧
      p.at? [0, 0, 1, 0] = some (around, t) ∧ t.child? 0 = some (inner, c) ∧ exprOf? c = some e ∧
        Exact signSource t ∧ Slices signSource e.span "a.b".toList ∧ Reparses signSource e := by
  have hrun : (((Program.parse signSource).toOption.bind (·.at? [0, 0, 1, 0])).filter fun found =>
      spanOf found.2 = stretch 9 13 ∧ ((found.2.child? 0).bind fun child => exprOf? child.2).any
        fun e => e.span = stretch 10 13).isSome = true := by
    decide +kernel
  obtain ⟨⟨around, t⟩, hfound⟩ := Option.isSome_iff_exists.1 hrun
  obtain ⟨hfound, hchecks⟩ := Option.filter_eq_some_iff.1 hfound
  obtain ⟨p, hp, hat⟩ := Option.bind_eq_some_iff.1 hfound
  obtain ⟨hsign, hoperand⟩ := of_decide_eq_true hchecks
  obtain ⟨e, hchild, he⟩ := (Option.any_eq_true _ _).1 hoperand
  obtain ⟨⟨inner, c⟩, hchild, hexpr⟩ := Option.bind_eq_some_iff.1 hchild
  have hspan : e.span = stretch 10 13 := of_decide_eq_true he
  have hparse : Program.parse signSource = .ok p := eq_ok_of_toOption hp
  have hexact := spans_exact hparse hat
  refine ⟨p, around, t, inner, c, e, hparse, hat, hchild, hexpr, hexact, ?_, ?_⟩
  · rw [hspan]
    rfl
  · refine hexact.expressions 0 inner c hchild e hexpr fun hsupplied => ?_
    have heq := hsupplied.span_eq
    rw [hspan, hsign] at heq
    exact absurd heq (by decide)

end Lox
