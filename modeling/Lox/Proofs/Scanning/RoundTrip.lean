import Lox.Proofs.Scanning.Munching
import Lox.Proofs.Scanning.Pieces
import Mathlib.Data.List.Basic

/-!
# Tokens and their text

The lexemes of the tokens of a source text, with single spaces between them, are a source text again.
It has the same tokens, whatever stood between them before; also when that was an error.

A token ends in front of a space, since no token goes on with one. It may be another token that ended
there before, or nothing at all: what a token is does not depend on what followed it.

## Contents
- `Piece.Apart`, `Piece.Munched.apart`: a space ends every token.
- `Piece.pieces_intercalate`: tokens with spaces between them.
- `rendered`, `tokens_round_trip`: the round trip.
-/

namespace Lox

open Piece Token

namespace Piece

/-! ## A space behind a token -/

/-- A text that goes on with a space, or not at all. -/
def Apart (behind : List Char) : Prop := ∀ c, behind.head? = some c → c = ' '

theorem apart_nil : Apart [] := nofun

theorem apart_space (behind : List Char) : Apart (' ' :: behind) :=
  fun _ heq => (Option.some.inj heq).symm

/-- A token ends in front of a space, whatever followed it before. -/
theorem Munched.apart {kind : Kind} {text behind after : List Char}
    (h : Munched ⟨.token kind, text⟩ behind) (hafter : Apart after) :
    Munched ⟨.token kind, text⟩ after :=
  h.separated fun c hc => hafter c hc ▸ separates_space

/-! ## Tokens with spaces between them -/

/-- Whether a piece is a token. -/
def isToken (p : Piece) : Bool := p.kind?.isSome

/-- A single space. -/
def space : Piece := ⟨.blank, [' ']⟩

theorem pieces_apart {p : Piece} (htoken : p.isToken = true) (hmunched : ∃ behind, Munched p behind)
    {after : List Char} (hafter : Apart after) : pieces (p.text ++ after) = p :: pieces after := by
  obtain ⟨shape, text⟩ := p
  obtain ⟨behind, hmunched⟩ := hmunched
  cases shape with
  | token kind => exact pieces_of_munched (hmunched.apart hafter)
  | blank | comment | flaw => exact absurd htoken Bool.false_ne_true

/-- Tokens with spaces between them are cut at these spaces. -/
theorem pieces_intercalate : (ps : List Piece) →
    (∀ p ∈ ps, p.isToken = true ∧ ∃ behind, Munched p behind) →
    pieces ([' '].intercalate (ps.map text)) = ps.intersperse space
  | [], _ => pieces_nil
  | [p], h => by
    obtain ⟨htoken, hmunched⟩ := h p List.mem_cons_self
    have hpieces := pieces_apart htoken hmunched apart_nil
    rw [List.append_nil, pieces_nil] at hpieces
    exact (congrArg pieces List.intercalate_singleton).trans hpieces
  | p :: q :: ps, h => by
    obtain ⟨hp, hrest⟩ := List.forall_mem_cons.1 h
    have hspace (cs : List Char) : pieces (' ' :: cs) = space :: pieces cs :=
      pieces_of_munched (.blank rfl : Munched space cs)
    rw [List.map_cons, List.map_cons, List.intercalate_cons_cons, List.append_assoc,
      List.intersperse_cons_cons]
    show pieces (p.text ++ ' ' :: [' '].intercalate ((q :: ps).map text)) = _
    rw [pieces_apart hp.1 hp.2 (apart_space _), hspace, pieces_intercalate (q :: ps) hrest]

theorem mem_intersperse {α : Type} {a sep : α} : (as : List α) → a ∈ as.intersperse sep →
    a ∈ as ∨ a = sep
  | [], h => absurd h List.not_mem_nil
  | [_], h => .inl h
  | b :: c :: as, h => by
    rw [List.intersperse_cons_cons, List.mem_cons, List.mem_cons] at h
    rcases h with rfl | rfl | h
    · exact .inl List.mem_cons_self
    · exact .inr rfl
    · exact (mem_intersperse (c :: as) h).imp_left (List.mem_cons_of_mem b)

theorem filter_intersperse {α : Type} {f : α → Bool} {sep : α} (hsep : f sep = false) :
    (as : List α) → (as.intersperse sep).filter f = as.filter f
  | [] => rfl
  | [_] => rfl
  | a :: b :: as => by
    have hrest := filter_intersperse hsep (b :: as)
    rw [List.intersperse_cons_cons, List.filter_cons, List.filter_cons_of_neg (by simp [hsep]), hrest]
    exact List.filter_cons.symm

/-! ## What tokens are -/

/-- What tokens are, their places apart, can be read off the pieces. -/
theorem map_tokensAt {α : Type} (f : Kind → String → α) (l : Location) (ps : List Piece) :
    (tokensAt l ps).map (fun t => f t.kind t.lexeme) =
      (ps.filter isToken).filterMap fun p => p.kind?.map (f · (String.ofList p.text)) := by
  induction ps generalizing l with
  | nil => rfl
  | cons p ps ih =>
      obtain ⟨shape, text⟩ := p
      rw [tokensAt_cons, List.map_append, ih]
      cases shape <;> rfl

theorem lexemes_tokensAt (l : Location) (ps : List Piece) :
    (tokensAt l ps).map (·.lexeme.toList) = (ps.filter isToken).map text := by
  rw [map_tokensAt fun _ lexeme => lexeme.toList, ← List.filterMap_eq_map]
  refine List.filterMap_congr fun p hp => ?_
  obtain ⟨kind, hkind⟩ := Option.isSome_iff_exists.1 (List.mem_filter.1 hp).2
  rw [hkind, Option.map_some, String.toList_ofList]
  rfl

theorem sound_of_isToken {p : Piece} (h : p.isToken = true) : p.Sound := by
  obtain ⟨shape, text⟩ := p
  cases shape with
  | token kind => exact fun _ => nofun
  | blank | comment | flaw => exact absurd h Bool.false_ne_true

end Piece

/-! ## Main result -/

/-- The lexemes of tokens, with single spaces between them. -/
def rendered (ts : List Token) : List Char := [' '].intercalate (ts.map (·.lexeme.toList))

/-- **Tokens round-trip through their text.** The lexemes of the tokens of any source text, with single
spaces between them, have no lexical error and the same tokens: the same kinds, lexemes and values in
the same order. -/
theorem tokens_round_trip (source : List Char) :
    (scan (rendered (scan source).tokens)).errors = [] ∧
      (scan (rendered (scan source).tokens)).tokens.map (fun t => (t.kind, t.lexeme, t.literal)) =
        (scan source).tokens.map fun t => (t.kind, t.lexeme, t.literal) := by
  let ps := (pieces source).filter isToken
  have hps : ∀ p ∈ ps, p.isToken = true ∧ ∃ behind, Munched p behind := by
    intro p hp
    obtain ⟨hmem, htoken⟩ := List.mem_filter.1 hp
    exact ⟨htoken, exists_munched hmem⟩
  have hlexemes : (scan source).tokens.map (·.lexeme.toList) = ps.map text := lexemes_tokensAt _ _
  have hpieces : pieces (rendered (scan source).tokens) = ps.intersperse space := by
    rw [rendered, hlexemes, pieces_intercalate ps hps]
  constructor
  · rw [scan_errors_eq_nil_iff, hpieces]
    intro p hp
    rcases mem_intersperse ps hp with hmem | rfl
    · exact sound_of_isToken (hps p hmem).1
    · exact fun _ => nofun
  · have hfilter : (ps.intersperse space).filter isToken = ps := by
      rw [filter_intersperse rfl, List.filter_filter]
      simp only [Bool.and_self]
      rfl
    refine (map_tokensAt (fun kind lexeme => (kind, lexeme, literalOf kind lexeme)) _ _).trans ?_
    rw [hpieces, hfilter]
    exact (map_tokensAt (fun kind lexeme => (kind, lexeme, literalOf kind lexeme)) _ _).symm

/-- A point behind a decimal is a token, and stays one; the unit that is no token goes. -/
example : rendered (scan "1.2.3@a//b".toList).tokens = "1.2 . 3 a".toList := by
  cbv

end Lox
