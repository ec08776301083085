import Lox.Proofs.Spans.Spelling
import Lox.Proofs.Places.Scanning
import Lox.Proofs.Scanning.Regions
import Lox.Proofs.Scanning.RoundTrip

/-!
# The text under a span

A run of tokens is a stretch of the source: it begins with its first token and ends with its last one,
and between them there are the same white space and comments. This stretch can be cut out. Scanned in
another place, with something in front that is cut off by a space, and with a semicolon behind, it has
the same tokens; a piece does not depend on what is further away than the next character.

## Contents
- `Cut`, `pieces_of_cut`: pieces in front of a text.
- `exists_pieces`: the pieces under a run of tokens.
- `Within`, `Covers.within`: spans inside spans.
- `Slices`, `declaring`: the text under a span, as an initializer.
- `exists_declaring`: the tokens of the initializer.
-/

namespace Lox.Spans

open Piece Token

/-! ## Pieces in front of a text -/

/-- The pieces are cut off one after the other from their text and `behind`. -/
def Cut : List Piece → List Char → Prop
  | [], _ => True
  | p :: ps, behind => Munched p (ps.flatMap text ++ behind) ∧ Cut ps behind

section Cut

variable {ps qs : List Piece} {behind after : List Char}

theorem cut_append :
    Cut (ps ++ qs) behind ↔ Cut ps (qs.flatMap text ++ behind) ∧ Cut qs behind := by
  induction ps with
  | nil => exact ⟨fun h => ⟨trivial, h⟩, fun h => h.2⟩
  | cons p ps ih =>
      show Munched p ((ps ++ qs).flatMap text ++ behind) ∧ Cut (ps ++ qs) behind ↔
        (Munched p (ps.flatMap text ++ (qs.flatMap text ++ behind)) ∧ _) ∧ _
      rw [ih, List.flatMap_append, List.append_assoc, and_assoc]

theorem cut_pieces (cs : List Char) : Cut (pieces cs) [] := by
  fun_induction pieces cs with
  | case1 => trivial
  | case2 c rest ih =>
      refine ⟨?_, ih⟩
      rw [text_pieces, List.append_nil]
      exact munched_munch c rest

/-- The pieces of the whole text. -/
theorem pieces_of_cut (h : Cut ps behind) :
    pieces (ps.flatMap text ++ behind) = ps ++ pieces behind := by
  induction ps with
  | nil => rfl
  | cons p ps ih =>
      obtain ⟨hp, hps⟩ := h
      rw [List.flatMap_cons, List.append_assoc, pieces_of_munched hp, ih hps]
      rfl

/-- With a token at the end, a separator may follow instead. -/
theorem Cut.separated {q : Piece} (h : Cut (ps ++ [q]) behind) (htoken : q.isToken = true)
    (hafter : ∀ c, after.head? = some c → Separates c) : Cut (ps ++ [q]) after := by
  induction ps with
  | nil =>
      obtain ⟨hq, _⟩ := h
      obtain ⟨shape, text⟩ := q
      cases shape with
      | token kind => exact ⟨hq.separated hafter, trivial⟩
      | blank | comment | flaw => exact absurd htoken Bool.false_ne_true
  | cons p ps ih =>
      obtain ⟨hp, hps⟩ := h
      -- the next character is one of a piece that stays
      have hne : (ps ++ [q]).flatMap text ≠ [] := by
        obtain ⟨hq, _⟩ := (cut_append.1 hps).2
        rw [List.flatMap_append, List.flatMap_singleton]
        exact List.append_ne_nil_of_right_ne_nil _ hq.text_ne_nil
      obtain ⟨c, cs, htext⟩ := List.exists_cons_of_ne_nil hne
      refine ⟨hp.of_head? ?_, ih hps⟩
      show ((ps ++ [q]).flatMap text ++ after).head? = ((ps ++ [q]).flatMap text ++ behind).head?
      rw [htext]
      rfl

end Cut

/-! ## Tokens and their pieces -/

section Pieces

variable {l : Location} {p : Piece} {ps : List Piece} {as us bs : List Token} {t : Token} {span : Span}

theorem span_of_token? (h : p.token? l = some t) : t.span = ⟨l, l.after p.text⟩ ∧ p.isToken = true := by
  obtain ⟨shape, text⟩ := p
  cases shape with
  | token kind =>
      cases h
      exact ⟨rfl, rfl⟩
  | blank | comment | flaw => exact nomatch h

/-- The piece that is a token, with what is in front of it and behind it. -/
theorem tokensAt_eq_append_cons (h : tokensAt l ps = as ++ t :: bs) :
    ∃ ps₁ p ps₂, ps = ps₁ ++ p :: ps₂ ∧ tokensAt l ps₁ = as ∧
      p.token? (l.after (ps₁.flatMap text)) = some t ∧
        tokensAt (l.after ((ps₁ ++ [p]).flatMap text)) ps₂ = bs := by
  induction ps generalizing l as with
  | nil => exact absurd h.symm (List.append_ne_nil_of_right_ne_nil _ (List.cons_ne_nil _ _))
  | cons p ps ih =>
      rw [tokensAt_cons] at h
      cases htoken : p.token? l with
      | none =>
          -- a piece between the tokens
          rw [htoken] at h
          obtain ⟨ps₁, q, ps₂, rfl, has, hq, hbs⟩ := ih h
          refine ⟨p :: ps₁, q, ps₂, rfl, ?_, ?_, ?_⟩
          · rw [tokensAt_cons, htoken, has]
            rfl
          · rwa [List.flatMap_cons, Location.after_append]
          · rwa [List.cons_append, List.flatMap_cons, Location.after_append]
      | some t' =>
          rw [htoken] at h
          cases as with
          | nil =>
              obtain ⟨rfl, hbs⟩ := List.cons.inj h
              refine ⟨[], p, ps, rfl, rfl, htoken, ?_⟩
              rw [List.nil_append, List.flatMap_singleton]
              exact hbs
          | cons a as =>
              obtain ⟨rfl, hrest⟩ := List.cons.inj h
              obtain ⟨ps₁, q, ps₂, rfl, has, hq, hbs⟩ := ih hrest
              refine ⟨p :: ps₁, q, ps₂, rfl, ?_, ?_, ?_⟩
              · rw [tokensAt_cons, htoken, has]
                rfl
              · rwa [List.flatMap_cons, Location.after_append]
              · rwa [List.cons_append, List.flatMap_cons, Location.after_append]

/-- **The pieces under a run of tokens**, from the first token to the last one. -/
theorem exists_pieces (h : tokensAt l ps = as ++ us ++ bs) (hcovers : Covers us span) :
    ∃ ps₁ qs q ps₂, ps = ps₁ ++ (qs ++ [q]) ++ ps₂ ∧ q.isToken = true ∧
      tokensAt (l.after (ps₁.flatMap text)) (qs ++ [q]) = us ∧
        span = ⟨l.after (ps₁.flatMap text), l.after ((ps₁ ++ (qs ++ [q])).flatMap text)⟩ := by
  obtain ⟨first, last, hfirst, hlast, rfl⟩ := hcovers
  obtain ⟨us', rfl⟩ := List.head?_eq_some_iff.1 hfirst
  rw [List.append_assoc, List.cons_append] at h
  obtain ⟨ps₁, p, ps₂, rfl, -, hp, hrest⟩ := tokensAt_eq_append_cons h
  obtain ⟨hspan, htoken⟩ := span_of_token? hp
  -- the first token is the last one too, or the last one is found behind it
  rcases List.eq_nil_or_concat us' with rfl | ⟨ms, last', rfl⟩
  · obtain rfl : first = last := Option.some.inj hlast
    refine ⟨ps₁, [], p, ps₂, by simp, htoken, ?_, ?_⟩
    · rw [List.nil_append, tokensAt_cons, hp]
      rfl
    · rw [hspan, List.nil_append, List.flatMap_append, List.flatMap_singleton,
        Location.after_append]
  · rw [List.concat_eq_append] at hlast hrest ⊢
    rw [← List.cons_append, List.getLast?_concat] at hlast
    obtain rfl := Option.some.inj hlast
    rw [List.append_assoc] at hrest
    obtain ⟨ps₃, q, ps₄, rfl, hms, hq, -⟩ := tokensAt_eq_append_cons hrest
    obtain ⟨hspan', htoken'⟩ := span_of_token? hq
    refine ⟨ps₁, p :: ps₃, q, ps₄, by simp, htoken', ?_, ?_⟩
    · rw [List.flatMap_append, List.flatMap_singleton, Location.after_append] at hms hq
      rw [List.cons_append, tokensAt_cons, hp, tokensAt_append, hms, tokensAt_cons, hq]
      rfl
    · rw [hspan, hspan']
      simp only [List.flatMap_append, List.flatMap_cons, List.flatMap_nil, List.append_nil,
        Location.after_append]

/-! ## Spans inside spans -/

/-- One span lies inside another. -/
def Within (inner outer : Span) : Prop :=
  outer.start.offset ≤ inner.start.offset ∧ inner.stop.offset ≤ outer.stop.offset

/-- A run of tokens inside another one, among the tokens of a text. -/
theorem Covers.within {ts : List Token} {inner outer : Span} (h : tokensAt l ps = as ++ ts ++ bs)
    (hts : Covers ts outer) (hin : us <:+: ts) (hus : Covers us inner) : Within inner outer := by
  obtain ⟨ps₁, qs, q, ps₂, rfl, -, htokens, rfl⟩ := exists_pieces h hts
  obtain ⟨as', bs', rfl⟩ := hin
  obtain ⟨rs₁, rs, r, rs₂, hrs, -, -, rfl⟩ := exists_pieces htokens hus
  rw [hrs]
  unfold Within
  simp only [Location.offset_after, List.flatMap_append, Text.width_append]
  omega

end Pieces

/-! ## The text under a span -/

/-- The text is what stands in the source under a span. -/
def Slices (source : List Char) (span : Span) (text : List Char) : Prop :=
  text.flatMap Text.units =
    ((source.flatMap Text.units).drop span.start.offset).take (span.stop.offset - span.start.offset)

theorem slices_between (before text behind : List Char) :
    Slices (before ++ text ++ behind)
      ⟨Location.start.after before, Location.start.after (before ++ text)⟩ text := by
  have hspans : Lox.Scanning.Region.Spans ⟨(Location.start.after before).offset,
      (Location.start.after (before ++ text)).offset, .trivia⟩ before text := by
    constructor
    · exact (Location.offset_after _ _).trans (Nat.zero_add _)
    · rw [← Text.width_append]
      exact (Location.offset_after _ _).trans (Nat.zero_add _)
  exact hspans.units.symm

/-- A declaration of a variable with the text as its initializer. -/
def declaring (text : List Char) : List Char := "var v = ".toList ++ text ++ [';']

/-- The pieces in front of the initializer. -/
def opening : List Piece :=
  [⟨.token .var, ['v', 'a', 'r']⟩, space, ⟨.token .identifier, ['v']⟩, space, ⟨.token .equal, ['=']⟩,
    space]

theorem pieces_opening (cs : List Char) : pieces ("var v = ".toList ++ cs) = opening ++ pieces cs := by
  have hspace (rest : List Char) : munch ' ' rest = (space, rest) := rfl
  have hword : munch 'v' (['a', 'r', ' ', 'v', ' ', '=', ' '] ++ cs) =
    (⟨.token .var, ['v', 'a', 'r']⟩, ' ' :: 'v' :: ' ' :: '=' :: ' ' :: cs) := rfl
  have hname : munch 'v' (' ' :: '=' :: ' ' :: cs) =
    (⟨.token .identifier, ['v']⟩, ' ' :: '=' :: ' ' :: cs) := rfl
  have hequal : munch '=' (' ' :: cs) = (⟨.token .equal, ['=']⟩, ' ' :: cs) := rfl
  show pieces ('v' :: (['a', 'r', ' ', 'v', ' ', '=', ' '] ++ cs)) = _
  rw [pieces_of_munch hword, pieces_of_munch (hspace _), pieces_of_munch hname,
    pieces_of_munch (hspace _), pieces_of_munch hequal, pieces_of_munch (hspace _)]
  rfl

theorem sound_opening : ∀ p ∈ opening, p.Sound := by
  simp [opening, space, Sound]

/-- The pieces of an initializer stay what they are. -/
theorem pieces_declaring {ps : List Piece} {q : Piece} {behind : List Char}
    (h : Cut (ps ++ [q]) behind) (htoken : q.isToken = true) :
    pieces (declaring ((ps ++ [q]).flatMap text)) =
      opening ++ (ps ++ [q] ++ [⟨.token .semicolon, [';']⟩]) := by
  have hsemicolon : pieces [';'] = [⟨.token .semicolon, [';']⟩] := by
    have hmunched : Munched ⟨.token .semicolon, [';']⟩ [] := .single rfl nofun nofun
    exact (pieces_of_munched hmunched).trans (congrArg _ pieces_nil)
  have hcut : Cut (ps ++ [q]) [';'] := by
    refine h.separated htoken fun c hc => ?_
    obtain rfl : ';' = c := Option.some.inj hc
    exact separates_semicolon
  have hpieces := pieces_of_cut hcut
  rw [hsemicolon] at hpieces
  unfold declaring
  rw [List.append_assoc, pieces_opening, hpieces]

/-- **A run of tokens as an initializer.** The text under its span has no lexical error there, and the
tokens are spelled as they were. -/
theorem exists_declaring {source : List Char} {as us bs : List Token} {span : Span}
    (hsource : (scan source).errors = []) (h : (scan source).tokens = as ++ us ++ bs)
    (hcovers : Covers us span) :
    ∃ text, Slices source span text ∧ (scan (declaring text)).errors = [] ∧
      ∃ word name equal us' semicolon,
        (scan (declaring text)).tokens = word :: name :: equal :: (us' ++ [semicolon]) ∧
          [word, name, equal, semicolon].map spelling =
            [(.var, "var"), (.identifier, "v"), (.equal, "="), (.semicolon, ";")] ∧
          us'.map spelling = us.map spelling := by
  obtain ⟨ps₁, qs, q, ps₂, hps, htoken, rfl, rfl⟩ := exists_pieces h hcovers
  have hcut : Cut (qs ++ [q]) (ps₂.flatMap text) := by
    have hall := cut_pieces source
    rw [hps, List.append_assoc, cut_append, cut_append, List.append_nil (ps₂.flatMap text)] at hall
    exact hall.2.1
  have htext : source = ps₁.flatMap text ++ (qs ++ [q]).flatMap text ++ ps₂.flatMap text := by
    rw [← List.flatMap_append, ← List.flatMap_append, ← hps, text_pieces]
  have hpieces := pieces_declaring hcut htoken
  have htokens : (scan (declaring ((qs ++ [q]).flatMap text))).tokens =
      tokensAt .start (opening ++ (qs ++ [q] ++ [⟨.token .semicolon, [';']⟩])) := by
    rw [← hpieces]
    rfl
  rw [tokensAt_append, tokensAt_append] at htokens
  refine ⟨(qs ++ [q]).flatMap text, ?_, ?_, _, _, _, _, _, htokens, rfl, ?_⟩
  · have hslices := slices_between (ps₁.flatMap text) ((qs ++ [q]).flatMap text) (ps₂.flatMap text)
    rwa [← htext, ← List.flatMap_append] at hslices
  · rw [scan_errors_eq_nil_iff, hps] at hsource
    rw [scan_errors_eq_nil_iff, hpieces]
    intro p hp
    rcases List.mem_append.1 hp with hmem | hmem
    · exact sound_opening p hmem
    rcases List.mem_append.1 hmem with hmem | hmem
    · exact hsource p (List.mem_append_left _ (List.mem_append_right _ hmem))
    · rw [List.mem_singleton.1 hmem]
      exact sound_of_isToken rfl
  · exact (map_tokensAt Prod.mk _ _).trans (map_tokensAt Prod.mk _ _).symm

end Lox.Spans
