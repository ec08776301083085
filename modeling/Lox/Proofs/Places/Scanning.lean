import Lox.Proofs.Places.Syntax
import Lox.Proofs.Scanning.Pieces

/-!
# Scanning a text behind another one

A line feed ends every piece in front of it, unless it stands in a string; and a string that has no
lexical error is closed. So a text without lexical errors is cut into the same pieces when a line feed
and another text follow, and so is the text behind the line feed. Its tokens are further down by the
lines and further on by the units of what stands in front; their columns do not change.

## Contents
- `Piece.munch_append_line`, `Piece.pieces_append_line`: a line feed ends all pieces.
- `Location.shift`, `Location.behind`: places behind a text and a line feed.
- `scan_append_line`: the tokens of two texts that are joined by a line feed.
-/

namespace Lox

/-! ## Pieces -/

section Runs

variable {α : Type} {p : α → Bool}

/-- A run that has an end does not depend on what follows it. -/
theorem takeWhile_append_of_cons {xs ys : List α} {y : α} (hy : p y = false) :
    (xs ++ y :: ys).takeWhile p = xs.takeWhile p := by
  induction xs with
  | nil => simp [hy]
  | cons x xs ih =>
      rw [List.cons_append, List.takeWhile_cons, List.takeWhile_cons, ih]

theorem dropWhile_append_of_cons {xs ys : List α} {y : α} (hy : p y = false) :
    (xs ++ y :: ys).dropWhile p = xs.dropWhile p ++ y :: ys := by
  induction xs with
  | nil => simp [hy]
  | cons x xs ih =>
      rw [List.cons_append, List.dropWhile_cons, List.dropWhile_cons, ih]
      split <;> rfl

theorem dropWhile_append_of_eq_cons {xs ys zs : List α} {z : α} (h : xs.dropWhile p = z :: zs) :
    (xs ++ ys).dropWhile p = z :: zs ++ ys := by
  rw [List.dropWhile_append, h]
  rfl

theorem takeWhile_append_of_dropWhile {xs ys zs : List α} {z : α} (h : xs.dropWhile p = z :: zs) :
    (xs ++ ys).takeWhile p = xs.takeWhile p := by
  rw [List.takeWhile_append, if_neg]
  have hlength := congrArg List.length (List.takeWhile_append_dropWhile (p := p) (l := xs))
  rw [List.length_append, h, List.length_cons] at hlength
  omega

end Runs

namespace Piece

variable {c : Char} {rest ys : List Char}

theorem munchString_append (h : (munchString rest).1.Sound) :
    munchString (rest ++ ys) = ((munchString rest).1, (munchString rest).2 ++ ys) := by
  unfold munchString at h ⊢
  cases hdrop : rest.dropWhile (· != '"') with
  | nil =>
      rw [hdrop] at h
      exact absurd rfl (h .unterminated)
  | cons quote behind =>
      rw [dropWhile_append_of_eq_cons hdrop, takeWhile_append_of_dropWhile hdrop]
      rfl

theorem munchFraction_append (whole : List Char) :
    munchFraction whole (rest ++ '\n' :: ys) =
      ((munchFraction whole rest).1, (munchFraction whole rest).2 ++ '\n' :: ys) := by
  have hline : Decimal.isDigit '\n' = false := by decide
  cases rest with
  | nil => rfl
  | cons d ds =>
      by_cases hd : d = '.'
      · subst hd
        simp only [List.cons_append, munchFraction]
        rw [takeWhile_append_of_cons hline, dropWhile_append_of_cons hline]
        split <;> rfl
      · have hne (zs : List Char) : (d :: zs).head? ≠ some '.' := by simpa using hd
        rw [List.cons_append, munchFraction_of_ne whole (hne _), munchFraction_of_ne whole (hne _)]
        rfl

theorem munchNumber_append (c : Char) :
    munchNumber c (rest ++ '\n' :: ys) =
      ((munchNumber c rest).1, (munchNumber c rest).2 ++ '\n' :: ys) := by
  have hline : Decimal.isDigit '\n' = false := by decide
  unfold munchNumber
  rw [takeWhile_append_of_cons hline, dropWhile_append_of_cons hline, munchFraction_append]

theorem munchWord_append (c : Char) :
    munchWord c (rest ++ '\n' :: ys) =
      ((munchWord c rest).1, (munchWord c rest).2 ++ '\n' :: ys) := by
  have hline : isWordChar '\n' = false := by decide
  unfold munchWord
  rw [takeWhile_append_of_cons hline, dropWhile_append_of_cons hline]

theorem munchComment_append (c : Char) :
    munchComment c (rest ++ '\n' :: ys) =
      ((munchComment c rest).1, (munchComment c rest).2 ++ '\n' :: ys) := by
  let inside (d : Char) : Bool := d != '\n'
  have hline : inside '\n' = false := by decide
  show ((⟨.comment, c :: (rest ++ '\n' :: ys).takeWhile inside⟩ : Piece),
    (rest ++ '\n' :: ys).dropWhile inside) = _
  rw [takeWhile_append_of_cons hline, dropWhile_append_of_cons hline]
  rfl

theorem doubleOperator?_line (c : Char) : Token.doubleOperator? c '\n' = none := by
  unfold Token.doubleOperator?
  split <;> rename_i heq <;> first | rfl | exact absurd heq (by decide)

theorem munchOperator_append (c : Char) :
    munchOperator c (rest ++ '\n' :: ys) =
      ((munchOperator c rest).1, (munchOperator c rest).2 ++ '\n' :: ys) := by
  cases rest with
  | nil =>
      simp only [munchOperator, List.nil_append, doubleOperator?_line]
      cases Token.singleOperator? c <;> rfl
  | cons d behind =>
      simp only [munchOperator, List.cons_append]
      split <;> rfl

/-- A piece that is no error ends in front of a line feed that follows. -/
theorem munch_append_line (h : (munch c rest).1.Sound) :
    munch c (rest ++ '\n' :: ys) = ((munch c rest).1, (munch c rest).2 ++ '\n' :: ys) := by
  have hhead : ((rest ++ '\n' :: ys).head? == some '/') = (rest.head? == some '/') := by
    cases rest <;> rfl
  unfold munch at h ⊢
  rw [hhead]
  by_cases hblank : isBlank c = true
  · simp only [hblank, if_true]
  simp only [hblank, Bool.false_eq_true, if_false] at h ⊢
  by_cases hcomment : (c == '/' && rest.head? == some '/') = true
  · simp only [hcomment, if_true]
    exact munchComment_append c
  simp only [hcomment, Bool.false_eq_true, if_false] at h ⊢
  by_cases hstring : (c == '"') = true
  · simp only [hstring, if_true] at h ⊢
    exact munchString_append h
  simp only [hstring, Bool.false_eq_true, if_false] at h ⊢
  by_cases hdigit : Decimal.isDigit c = true
  · simp only [hdigit, if_true]
    exact munchNumber_append c
  simp only [hdigit, Bool.false_eq_true, if_false] at h ⊢
  by_cases hword : isWordStart c = true
  · simp only [hword, if_true]
    exact munchWord_append c
  · simp only [hword, Bool.false_eq_true, if_false]
    exact munchOperator_append c

/-- **A line feed ends all pieces** of a text without lexical errors. -/
theorem pieces_append_line {cs : List Char} (h : ∀ p ∈ pieces cs, p.Sound) :
    pieces (cs ++ '\n' :: ys) = pieces cs ++ ⟨.blank, ['\n']⟩ :: pieces ys := by
  fun_induction pieces cs with
  | case1 => exact pieces_of_munch rfl
  | case2 c rest ih =>
      obtain ⟨hfirst, hrest⟩ := List.forall_mem_cons.1 h
      rw [List.cons_append, pieces_of_munch (munch_append_line hfirst), ih hrest]
      rfl

/-! ## Pieces and places -/

theorem tokensAt_append (l : Location) (ps qs : List Piece) :
    tokensAt l (ps ++ qs) = tokensAt l ps ++ tokensAt (l.after (ps.flatMap text)) qs := by
  induction ps generalizing l with
  | nil => rfl
  | cons p ps ih =>
      rw [List.cons_append, tokensAt_cons, tokensAt_cons, ih, List.append_assoc,
        List.flatMap_cons, Location.after_append]

end Piece

namespace Location

/-- A place so many lines and units further on. -/
def shift (lines units : Nat) (l : Location) : Location :=
  ⟨l.line + lines, l.column, l.offset + units⟩

/-- Where a place of a text is when the text stands behind `p` and a line feed. -/
def behind (p : List Char) (l : Location) : Location := l.shift (p.count '\n' + 1) (Text.width p + 1)

theorem advance_shift (lines units : Nat) (l : Location) (c : Char) :
    (l.shift lines units).advance c = (l.advance c).shift lines units := by
  unfold advance shift
  split <;> simp only [mk.injEq, true_and] <;> omega

theorem after_shift (lines units : Nat) (l : Location) (cs : List Char) :
    (l.shift lines units).after cs = (l.after cs).shift lines units := by
  induction cs generalizing l with
  | nil => rfl
  | cons c cs ih => rw [after_cons, after_cons, advance_shift, ih]

theorem line_after (l : Location) (cs : List Char) :
    (l.after cs).line = l.line + cs.count '\n' := by
  induction cs generalizing l with
  | nil => rfl
  | cons c cs ih =>
      rw [after_cons, ih, advance, List.count_cons]
      by_cases hc : c = '\n'
      · simp only [hc, if_true, beq_self_eq_true]
        omega
      · have hbeq : (c == '\n') = false := beq_false_of_ne hc
        simp only [hc, if_false, hbeq, Bool.false_eq_true, Nat.add_zero]

/-- The place behind `p` and a line feed is where a text behind them begins. -/
theorem after_line (p : List Char) : start.after (p ++ ['\n']) = start.behind p := by
  have hline := line_after start p
  have hoffset := offset_after start p
  have hunits : Text.unitCount '\n' = 1 := by decide
  rw [after_append, after_cons, after_nil]
  unfold advance behind shift
  rw [if_pos rfl, hline, hoffset, hunits]
  simp only [start, mk.injEq, true_and]
  omega

end Location

namespace Piece

theorem tokensAt_shift (lines units : Nat) (l : Location) (ps : List Piece) :
    tokensAt (l.shift lines units) ps =
      (tokensAt l ps).map (·.relocate (Location.shift lines units)) := by
  induction ps generalizing l with
  | nil => rfl
  | cons p ps ih =>
      rw [tokensAt_cons, tokensAt_cons, Location.after_shift, ih, List.map_append]
      congr 1
      unfold token?
      split
      · rw [Location.after_shift]
        rfl
      · rfl

end Piece

open Piece

/-- **Scanning is compositional at a line feed.** -/
theorem scan_append_line {p q : List Char} (h : (scan p).errors = []) :
    (scan (p ++ '\n' :: q)).tokens =
      (scan p).tokens ++ (scan q).tokens.map (·.relocate (Location.behind p)) := by
  have hsound := (scan_errors_eq_nil_iff p).1 h
  show tokensAt .start (pieces (p ++ '\n' :: q)) = tokensAt .start (pieces p) ++
    (tokensAt .start (pieces q)).map (·.relocate (Location.behind p))
  rw [pieces_append_line hsound, tokensAt_append, text_pieces, tokensAt_cons]
  have hstart : (Location.start.after p).after ['\n'] = Location.start.behind p := by
    rw [← Location.after_line, Location.after_append]
  congr 1
  show tokensAt ((Location.start.after p).after ['\n']) (pieces q) = _
  rw [hstart]
  exact tokensAt_shift _ _ _ _

theorem scan_errors_append_line {p q : List Char} (hp : (scan p).errors = [])
    (hq : (scan q).errors = []) : (scan (p ++ '\n' :: q)).errors = [] := by
  rw [scan_errors_eq_nil_iff] at hp hq ⊢
  rw [pieces_append_line hp]
  intro piece hmem
  rw [List.mem_append, List.mem_cons] at hmem
  rcases hmem with hmem | rfl | hmem
  · exact hp piece hmem
  · exact nofun
  · exact hq piece hmem

end Lox
