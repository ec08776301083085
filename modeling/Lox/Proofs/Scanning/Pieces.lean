import Lox.Token.Scan

/-!
# Pieces and tokens

What a scan finds can be read off the pieces of the source text: the kinds of the tokens are those
of the pieces, in order, and there is no lexical error when no piece is flawed.

## Contents
- `Piece.kind?`, `map_kind_tokens`: the kinds of the tokens.
- `Piece.Sound`, `errors_eq_nil_iff`: when there is no lexical error.
- `pieces_of_munch`: pieces one by one.
-/

namespace Lox

namespace Piece

/-- The kind of the token that a piece is. -/
def kind? (p : Piece) : Option Token.Kind :=
  match p.shape with
  | .token kind => some kind
  | _ => none

/-- A piece that is no error. -/
def Sound (p : Piece) : Prop := ∀ flaw, p.shape ≠ .flaw flaw

/-- The tokens that pieces are, the first one at `l`. -/
def tokensAt (l : Location) (ps : List Piece) : List Token :=
  (locate l ps).filterMap fun (l, p) => p.token? l

/-- The errors that pieces give rise to, the first one at `l`. -/
def errorsAt (l : Location) (ps : List Piece) : List LexicalError :=
  (locate l ps).flatMap fun (l, p) => p.errors l

@[simp] theorem tokensAt_nil (l : Location) : tokensAt l [] = [] := rfl

theorem tokensAt_cons (l : Location) (p : Piece) (ps : List Piece) :
    tokensAt l (p :: ps) = (p.token? l).toList ++ tokensAt (l.after p.text) ps := by
  rw [tokensAt, locate, List.filterMap_cons, tokensAt]
  dsimp only
  cases p.token? l <;> rfl

@[simp] theorem errorsAt_nil (l : Location) : errorsAt l [] = [] := rfl

theorem errorsAt_cons (l : Location) (p : Piece) (ps : List Piece) :
    errorsAt l (p :: ps) = p.errors l ++ errorsAt (l.after p.text) ps := by
  rw [errorsAt, locate, List.flatMap_cons]
  rfl

theorem pieces_of_munch {c : Char} {rest behind : List Char} {p : Piece}
    (h : munch c rest = (p, behind)) : pieces (c :: rest) = p :: pieces behind := by
  rw [pieces_cons, h]

theorem map_kind_token? (l : Location) (p : Piece) : (p.token? l).map (·.kind) = p.kind? := by
  unfold token? kind?
  cases p.shape <;> rfl

theorem map_kind_tokensAt (l : Location) (ps : List Piece) :
    (tokensAt l ps).map (·.kind) = ps.filterMap kind? := by
  induction ps generalizing l with
  | nil => rfl
  | cons p ps ih =>
      rw [tokensAt_cons, List.map_append, ih, List.filterMap_cons, ← map_kind_token? l p]
      cases p.token? l <;> rfl

/-- A piece has no errors when it is sound: every flaw is reported. -/
theorem errors_eq_nil_iff {l : Location} {p : Piece} (htext : p.text ≠ []) :
    p.errors l = [] ↔ p.Sound := by
  unfold errors Sound
  cases hshape : p.shape with
  | blank | comment | token =>
      exact ⟨fun _ _ => nofun, fun _ => rfl⟩
  | flaw flaw =>
      refine ⟨fun h => absurd h ?_, fun h => absurd rfl (h flaw)⟩
      cases flaw with
      | unterminated | badNumber => exact List.cons_ne_nil _ _
      | unexpected =>
          -- every character has a unit, and every unit is reported
          obtain ⟨c, cs, htext⟩ := List.exists_cons_of_ne_nil htext
          have hunits := Text.unitCount_pos c
          rw [← Text.length_units] at hunits
          obtain ⟨u, us, hunits⟩ := List.exists_cons_of_length_pos hunits
          rw [htext, List.flatMap_cons, hunits]
          exact List.cons_ne_nil _ _

theorem errorsAt_eq_nil_iff {l : Location} {ps : List Piece} (htext : ∀ p ∈ ps, p.text ≠ []) :
    errorsAt l ps = [] ↔ ∀ p ∈ ps, p.Sound := by
  induction ps generalizing l with
  | nil => exact ⟨fun _ _ => nofun, fun _ => rfl⟩
  | cons p ps ih =>
      obtain ⟨hp, hps⟩ := List.forall_mem_cons.1 htext
      rw [errorsAt_cons, List.append_eq_nil_iff, List.forall_mem_cons, errors_eq_nil_iff hp, ih hps]

theorem text_ne_nil_of_mem_pieces (cs : List Char) : ∀ p ∈ pieces cs, p.text ≠ [] := by
  fun_induction pieces cs with
  | case1 => exact List.forall_mem_nil _
  | case2 c rest ih => exact List.forall_mem_cons.2 ⟨munch_text_ne_nil c rest, ih⟩

end Piece

open Piece

theorem map_kind_tokens (source : List Char) :
    (scan source).tokens.map (·.kind) = (pieces source).filterMap kind? :=
  map_kind_tokensAt _ _

/-- A source text has no lexical error when its pieces are sound. -/
theorem scan_errors_eq_nil_iff (source : List Char) :
    (scan source).errors = [] ↔ ∀ p ∈ pieces source, p.Sound :=
  errorsAt_eq_nil_iff (text_ne_nil_of_mem_pieces source)

end Lox
