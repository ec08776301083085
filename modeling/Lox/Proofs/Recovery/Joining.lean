import Lox.Proofs.Layout.Parsing
import Lox.Proofs.Places.Parsing
import Lox.Proofs.Recovery.Progress

/-!
# Texts with errors behind texts without any

A text without errors ends at the boundary of a declaration. So behind it and a line feed any other
text is read as if it stood alone, errors included, only further down; unless it begins with an `else`,
which the last statement of the first text would take.

The first text is read in both modes alike, since it has no errors. What stands behind it does not look
back: before it passes a token of its own no production asks which one was passed last, recovery not
excepted. And there is more room for it than it has alone, which makes no difference.

## Contents
- `scan_behind`: the lexical errors and the end of the text behind.
- `declarations_in_front`: the declarations of the text in front.
- `declarations_behind`: those of the text behind, with their errors.
- `recover_append_line`: the recovering parse of two texts that are joined by a line feed.
-/

namespace Lox

/-! ## Scanning -/

namespace Piece

theorem errorsAt_append (l : Location) (ps qs : List Piece) :
    errorsAt l (ps ++ qs) = errorsAt l ps ++ errorsAt (l.after (ps.flatMap text)) qs := by
  induction ps generalizing l with
  | nil => rfl
  | cons p ps ih =>
      rw [List.cons_append, errorsAt_cons, errorsAt_cons, ih, List.append_assoc,
        List.flatMap_cons, Location.after_append]

variable (lines units : Nat) (l : Location)

theorem unexpectedUnits_shift (us : List Nat) :
    unexpectedUnits (l.shift lines units) us =
      (unexpectedUnits l us).map (·.relocate (Location.shift lines units)) := by
  induction us generalizing l with
  | nil => rfl
  | cons u us ih =>
      have hnext : (⟨(l.shift lines units).line, (l.shift lines units).column + 1,
          (l.shift lines units).offset + 1⟩ : Location) =
          Location.shift lines units ⟨l.line, l.column + 1, l.offset + 1⟩ := by
        simp only [Location.shift, Location.mk.injEq, true_and]
        omega
      rw [unexpectedUnits, unexpectedUnits, List.map_cons, hnext, ih]
      rfl

theorem errors_shift (p : Piece) :
    p.errors (l.shift lines units) =
      (p.errors l).map (·.relocate (Location.shift lines units)) := by
  unfold errors
  split
  · exact unexpectedUnits_shift lines units l _
  · rfl
  · rfl
  · rfl

theorem errorsAt_shift (ps : List Piece) :
    errorsAt (l.shift lines units) ps =
      (errorsAt l ps).map (·.relocate (Location.shift lines units)) := by
  induction ps generalizing l with
  | nil => rfl
  | cons p ps ih =>
      rw [errorsAt_cons, errorsAt_cons, Location.after_shift, ih, List.map_append, errors_shift]

end Piece

/-- **A text behind another one** has its tokens, its errors and its end there. -/
theorem scan_behind {p q : List Char} (h : (scan p).errors = []) :
    (scan (p ++ '\n' :: q)).tokens =
        (scan p).tokens ++ ((scan q).relocate (Location.behind p)).tokens ∧
      (scan (p ++ '\n' :: q)).errors = ((scan q).relocate (Location.behind p)).errors ∧
      (scan (p ++ '\n' :: q)).finish = ((scan q).relocate (Location.behind p)).finish := by
  have hsound := (scan_errors_eq_nil_iff p).1 h
  have hstart : (Location.start.after p).after ['\n'] = Location.start.behind p := by
    rw [← Location.after_line, Location.after_append]
  refine ⟨scan_append_line h, ?_, ?_⟩
  · show Piece.errorsAt .start (Piece.pieces (p ++ '\n' :: q)) = _
    rw [Piece.pieces_append_line hsound, Piece.errorsAt_append, Piece.text_pieces,
      Piece.errorsAt_cons, hstart]
    have hnone : Piece.errorsAt .start (Piece.pieces p) = [] := h
    rw [hnone]
    exact Piece.errorsAt_shift _ _ _ _
  · show Location.start.after (p ++ '\n' :: q) = (Location.start.after q).behind p
    rw [Location.after_append, Location.after_cons]
    have hline : (Location.start.after p).advance '\n' = Location.start.behind p := hstart
    rw [hline]
    exact Location.after_shift _ _ _ _

namespace Parsing

/-! ## Parsing -/

/-- A loop that reads without errors in one mode reads the same in the other one. -/
theorem declarationsFrom_recovering {n m : Nat} {c c' : Cursor} {decls : List Decl}
    (hc : c.errors = [])
    (h : declarationsFrom (declaration .strict n) (·.isNone) m c = .ok decls c') :
    declarationsFrom (declaration .recovering n) (·.isNone) m c = .ok decls c' ∧
      c'.errors = [] := by
  have hagree := (Lockstep.declarationsFrom (·.isNone) (Lockstep.statement_declaration n).2 m).agree
    c hc
  rw [h] at hagree
  generalize declarationsFrom (declaration .recovering n) (·.isNone) m c = r at hagree
  cases hagree with
  | together hnil => exact ⟨rfl, hnil⟩

/-- **The text in front** is read up to its end and no further: the tokens of the text behind it are
still to come then, nothing is open, and no error was recorded. -/
theorem declarations_in_front {s : Scan} {c' joined : Cursor} {P : Program} {tail : List Token}
    {n : Nat} (hP : program .strict (Cursor.ofScan s) = .ok P c')
    (htail : tail.head?.map (·.kind) ≠ some .else) (hrest : joined.rest = s.tokens ++ tail)
    (hdepth : joined.depth = 0) (herrors : joined.errors = [])
    (hn : recursionBound joined.rest.length ≤ n) :
    ∃ m d, m ≤ s.tokens.length ∧
      declarationsFrom (declaration .recovering n) (·.isNone) m joined = .ok P.body d ∧
      d.rest = tail ∧ d.finish = joined.finish ∧ d.depth = 0 ∧ d.errors = [] := by
  have hlength : s.tokens.length ≤ joined.rest.length := by
    rw [hrest, List.length_append]
    exact Nat.le_add_right _ _
  have hle : recursionBound s.tokens.length ≤ n := by
    unfold recursionBound at hn ⊢
    omega
  have hcarries := (Carries.statement_declaration (s := ⟨id, tail⟩) htail hle).2
  have hcarried : Carried ⟨id, tail⟩ (Cursor.ofScan s) joined := by
    refine ⟨?_, hdepth, nofun⟩
    rw [hrest]
    congr 1
    exact (List.map_id _).symm
  have hdecls := (program_ok_iff P.body).1 ⟨P, hP, rfl⟩
  obtain ⟨hend, m, d, hm, hd, hrun⟩ :=
    declarationsFrom_carried hcarries (Nat.le_refl _) hdecls hcarried
  obtain ⟨hrecovering, hnone⟩ := declarationsFrom_recovering herrors hrun
  have hinside : RepeatsInside (joined.rest.length + 1) (declaration .recovering n)
      (declaration .recovering n) := repeatsInside_declaration .recovering hn hn
  have hrepeats : Repeats false (declarationsFrom (declaration .recovering n) (·.isNone) m)
      (declarationsFrom (declaration .recovering n) (·.isNone) m) joined :=
    hinside.declarationsFrom rfl m m joined (Nat.lt_succ_self _) rfl
  have hadvanced := (hrepeats.ok _ d hrecovering).1
  refine ⟨m, d, hm, ?_, ?_, hadvanced.finish, hadvanced.depth.trans hdepth, hnone⟩
  · rw [hrecovering, Decl.relocateAll_id]
  · rw [hd.rest, hend]
    rfl

/-- What a recovering parse makes of a scan, when its declarations and errors are known. -/
theorem recover_of_declarations {s : Scan} {c' : Cursor} {decls : List Decl}
    (h : declarationsFrom (declaration .recovering (recursionBound s.tokens.length)) (·.isNone)
      s.tokens.length (Cursor.ofScan s) = .ok decls c') :
    s.recover = ⟨⟨decls, ⟨(Cursor.ofScan s).here, c'.here⟩⟩,
      s.errors.map .lexical ++ c'.errors.map .syntactic⟩ := by
  have hprogram := program_of_declarations (c := Cursor.ofScan s) h
  unfold Scan.recover
  rw [hprogram]

/-- **The text behind** is read as it stands alone, from anywhere and with more room. -/
theorem declarations_behind {s : Scan} {d : Cursor} {n k : Nat} (hrest : d.rest = s.tokens)
    (hfinish : d.finish = s.finish) (hdepth : d.depth = 0) (herrors : d.errors = [])
    (hn : recursionBound s.tokens.length ≤ n) (hk : s.tokens.length ≤ k) :
    ∃ d', declarationsFrom (declaration .recovering n) (·.isNone) k d =
        .ok s.recover.program.body d' ∧
      s.recover.errors = s.errors.map .lexical ++ d'.errors.map .syntactic := by
  have hnone : Option.isNone (none : Option Token.Kind) = true := rfl
  obtain ⟨decls, c', -, -, hrun⟩ := declarationsFrom_ends hnone (Cursor.ofScan s)
  have halone := hrun _ s.tokens.length (Nat.le_refl _) (Nat.le_refl _)
  have hrecover := recover_of_declarations halone
  have hbeside : Beside (Cursor.ofScan s) d := ⟨hrest, hfinish, hdepth, herrors, nofun⟩
  have hinside : RepeatsInside (s.tokens.length + 1)
      (declaration .recovering (recursionBound s.tokens.length)) (declaration .recovering n) :=
    repeatsInside_declaration .recovering (Nat.le_refl _) hn
  have hbound : min s.tokens.length s.tokens.length = min k s.tokens.length := by omega
  have hrepeats := hinside.declarationsFrom hnone _ k (Cursor.ofScan s) (Nat.lt_succ_self _) hbound
  obtain ⟨d', hd', hsame⟩ := (hrepeats.ok decls c' halone).2 d hbeside
  refine ⟨d', ?_, ?_⟩
  · rw [hd', hrecover]
  · rw [hrecover, hsame.errors]

end Parsing

open Parsing

/-- **Parsing is compositional where a declaration ends.** Behind a text without errors and a line
feed, any text that does not begin with an `else` has the declarations and the errors that it has
alone, at the places that it has there. -/
theorem recover_append_line {p q : List Char} (hp : (Program.recover p).errors = [])
    (helse : (scan q).tokens.head?.map (·.kind) ≠ some .else) :
    (Program.recover (p ++ '\n' :: q)).program.body =
        (Program.recover p).program.body ++
          Decl.relocateAll (Location.behind p) (Program.recover q).program.body ∧
      (Program.recover (p ++ '\n' :: q)).errors =
        (Program.recover q).errors.map (·.relocate (Location.behind p)) := by
  rcases parse_recover p with ⟨P, hparse, hrecover⟩ | ⟨e, -, hhead⟩
  case inr =>
    rw [hp] at hhead
    exact nomatch hhead
  obtain ⟨hlexical, c, hP⟩ := (parse_ok_iff p P).1 hparse
  obtain ⟨htokens, herrors, hfinish⟩ := scan_behind (q := q) hlexical
  let joined := scan (p ++ '\n' :: q)
  let behind := (scan q).relocate (Location.behind p)
  have htail : behind.tokens.head?.map (·.kind) ≠ some .else := by
    show ((scan q).tokens.map (·.relocate (Location.behind p))).head?.map (·.kind) ≠ some .else
    rw [List.head?_map, Option.map_map]
    exact helse
  have hlength : joined.tokens.length = (scan p).tokens.length + behind.tokens.length := by
    rw [htokens, List.length_append]
  let before := Cursor.ofScan joined
  let n := recursionBound joined.tokens.length
  obtain ⟨m, d, hm, hfirst, hrest, hend, hdepth, hnone⟩ :=
    declarations_in_front (n := n) hP htail (show before.rest = _ from htokens) rfl rfl
      (Nat.le_refl _)
  have hroom : recursionBound behind.tokens.length ≤ n := by
    unfold n recursionBound
    omega
  have hbound : behind.tokens.length ≤ joined.tokens.length - m := by omega
  obtain ⟨d', hsecond, hsyntactic⟩ :=
    declarations_behind hrest (hend.trans hfinish) hdepth hnone hroom hbound
  -- one loop reads the declarations of both parts; it is cut behind those of the first
  have hboth : declarationsFrom (declaration .recovering n) (·.isNone) joined.tokens.length before =
      .ok (P.body ++ behind.recover.program.body) d' := by
    have hadd := declarationsFrom_add (p := declaration .recovering n) m (joined.tokens.length - m)
      before
    rw [Nat.add_sub_of_le (by omega), bind_of_ok hfirst, bind_of_ok hsecond] at hadd
    exact hadd
  have hjoined : Program.recover (p ++ '\n' :: q) =
      ⟨⟨P.body ++ behind.recover.program.body, ⟨before.here, d'.here⟩⟩, behind.recover.errors⟩ := by
    rw [Program.recover_eq, recover_of_declarations hboth, hsyntactic, herrors]
  rw [hjoined, hrecover, Program.recover_eq q, Scan.recover_relocate]
  exact ⟨rfl, rfl⟩

/-- Two declarations, and behind them a broken one that ends in a character outside the basic plane, an
open string, and what a statement may not begin with. -/
theorem recover_append_line_broken :
    let p := "var a = 1; if (a) print a;".toList
    let q := "var = 𝄞; print 2;\n) \"".toList
    (Program.recover p).errors = [] ∧ (scan q).tokens.head?.map (·.kind) ≠ some .else ∧
      (Program.recover (p ++ '\n' :: q)).program.body =
        (Program.recover p).program.body ++
          Decl.relocateAll (Location.behind p) (Program.recover q).program.body ∧
      (Program.recover (p ++ '\n' :: q)).errors =
        (Program.recover q).errors.map (·.relocate (Location.behind p)) := by
  have hp : (Program.recover "var a = 1; if (a) print a;".toList).errors = [] := by
    decide +kernel
  have helse : (scan "var = 𝄞; print 2;\n) \"".toList).tokens.head?.map (·.kind) ≠ some .else := by
    decide +kernel
  exact ⟨hp, helse, recover_append_line hp helse⟩

end Lox
