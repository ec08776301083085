import Lox.Proofs.Scanning.Regions
import Lox.Proofs.Scanning.Pieces

/-!
# Exact places

A place of a source text is exact when its line and its column are what counting the units in front of
its offset gives: a line for each line feed, and a column for each unit behind the last one. Scanning
counts as it goes, through strings and comments with any number of lines, and what it counts is that.

## Contents
- `Location.Exact`: the places that a source text has.
- `Location.behindUnits`: the place behind a sequence of units.
- `after_eq_behindUnits`: counting characters as they are read.
- `exact_scan`: all places that scanning finds.
-/

namespace Lox

open Scanning

namespace Location

/-- A place that a source text has, whose units are given: it is between two of them or at an end, the
line counts the line feeds in front of it, and the column the units behind the last of these. -/
structure Exact (units : List Nat) (l : Location) : Prop where
  offset : l.offset ≤ units.length
  line : l.line = 1 + (units.take l.offset).count '\n'.toNat
  column : l.column =
    1 + ((units.take l.offset).reverse.takeWhile (· != '\n'.toNat)).length

instance (units : List Nat) (l : Location) : Decidable (l.Exact units) :=
  decidable_of_iff
    (l.offset ≤ units.length ∧ l.line = 1 + (units.take l.offset).count '\n'.toNat ∧
      l.column = 1 + ((units.take l.offset).reverse.takeWhile (· != '\n'.toNat)).length)
    ⟨fun ⟨hoffset, hline, hcolumn⟩ => ⟨hoffset, hline, hcolumn⟩,
      fun ⟨hoffset, hline, hcolumn⟩ => ⟨hoffset, hline, hcolumn⟩⟩

/-- The place behind a sequence of units. -/
def behindUnits (us : List Nat) : Location :=
  ⟨1 + us.count '\n'.toNat, 1 + (us.reverse.takeWhile (· != '\n'.toNat)).length, us.length⟩

/-- The place behind units at the front of a text is exact. -/
theorem exact_behindUnits {us units : List Nat} (h : us <+: units) :
    (behindUnits us).Exact units := by
  have htake : units.take us.length = us := (List.prefix_iff_eq_take.1 h).symm
  refine ⟨h.length_le, ?_, ?_⟩
  · show 1 + us.count '\n'.toNat = 1 + (units.take us.length).count '\n'.toNat
    rw [htake]
  · show 1 + (us.reverse.takeWhile (· != '\n'.toNat)).length = _
    rw [show (behindUnits us).offset = us.length from rfl, htake]

/-- Units without a line feed move the column. -/
theorem behindUnits_append {us vs : List Nat} (h : '\n'.toNat ∉ vs) :
    behindUnits (us ++ vs) =
      ⟨(behindUnits us).line, (behindUnits us).column + vs.length,
        (behindUnits us).offset + vs.length⟩ := by
  have hcount : vs.count '\n'.toNat = 0 := List.count_eq_zero.2 h
  have hall : ∀ u ∈ vs.reverse, (u != '\n'.toNat) = true := by
    intro u hu
    rw [bne_iff_ne]
    rintro rfl
    exact h (List.mem_reverse.1 hu)
  have hrun : ((us ++ vs).reverse.takeWhile (· != '\n'.toNat)) =
      vs.reverse ++ us.reverse.takeWhile (· != '\n'.toNat) := by
    rw [List.reverse_append, List.takeWhile_append_of_pos hall]
  unfold behindUnits
  rw [List.count_append, hcount, hrun, List.length_append, List.length_append, List.length_reverse]
  rw [mk.injEq]
  refine ⟨rfl, ?_, rfl⟩
  show 1 + (vs.length + _) = 1 + _ + vs.length
  omega

/-- A line feed opens a line. -/
theorem behindUnits_line (us : List Nat) :
    behindUnits (us ++ ['\n'.toNat]) = ⟨(behindUnits us).line + 1, 1, (behindUnits us).offset + 1⟩ := by
  have hrun : ((us ++ ['\n'.toNat]).reverse.takeWhile (· != '\n'.toNat)) = [] := by
    rw [List.reverse_append]
    rfl
  unfold behindUnits
  rw [hrun, List.count_append, List.count_singleton_self, List.length_append,
    List.length_singleton]
  rfl

/-- Reading a character is counting its units. -/
theorem advance_behindUnits (us : List Nat) (c : Char) :
    (behindUnits us).advance c = behindUnits (us ++ Text.units c) := by
  unfold advance
  split
  · rename_i hc
    subst hc
    rw [show Text.units '\n' = ['\n'.toNat] from rfl, behindUnits_line]
    rfl
  · rename_i hc
    have hnone : '\n'.toNat ∉ Text.units c := fun hmem => hc (eq_of_mem_units hmem).symm
    rw [behindUnits_append hnone, Text.length_units]

/-- **Counting characters as they are read** is counting the units in front. -/
theorem after_behindUnits (us : List Nat) (cs : List Char) :
    (behindUnits us).after cs = behindUnits (us ++ cs.flatMap Text.units) := by
  induction cs generalizing us with
  | nil => rw [after_nil, List.flatMap_nil, List.append_nil]
  | cons c cs ih =>
      rw [after_cons, advance_behindUnits, ih, List.flatMap_cons, List.append_assoc]

theorem after_eq_behindUnits (cs : List Char) :
    start.after cs = behindUnits (cs.flatMap Text.units) := after_behindUnits [] cs

/-- The place behind the front of a text is one of the text. -/
theorem exact_after (before behind : List Char) :
    (start.after before).Exact ((before ++ behind).flatMap Text.units) := by
  rw [after_eq_behindUnits, List.flatMap_append]
  exact exact_behindUnits (List.prefix_append _ _)

end Location

/-- Both ends are exact. -/
structure Span.Exact (units : List Nat) (span : Span) : Prop where
  start : span.start.Exact units
  stop : span.stop.Exact units

namespace Piece

open Location

/-- The errors about units without a line feed stand in front of one each. -/
theorem exact_unexpectedUnits {units us vs : List Nat} (hline : '\n'.toNat ∉ vs)
    (h : us ++ vs <+: units) :
    ∀ e ∈ unexpectedUnits (behindUnits us) vs, e.location.Exact units := by
  induction vs generalizing us with
  | nil => exact fun _ he => absurd he List.not_mem_nil
  | cons v vs ih =>
      obtain ⟨hv, hvs⟩ := not_or.1 (mt List.mem_cons.2 hline)
      have hnext : behindUnits (us ++ [v]) =
          ⟨(behindUnits us).line, (behindUnits us).column + 1, (behindUnits us).offset + 1⟩ :=
        behindUnits_append (by simpa using hv)
      refine List.forall_mem_cons.2 ⟨?_, ?_⟩
      · exact exact_behindUnits ((List.prefix_append _ _).trans h)
      · rw [← hnext]
        refine ih hvs ?_
        rwa [List.append_assoc]

/-- What a piece is stands at places of the text. -/
theorem exact_piece {behind : List Char} {p : Piece} (hp : Munched p behind) (before : List Char) :
    (∀ t ∈ p.token? (start.after before),
      t.span.Exact ((before ++ p.text ++ behind).flatMap Text.units)) ∧
    ∀ e ∈ p.errors (start.after before),
      e.location.Exact ((before ++ p.text ++ behind).flatMap Text.units) := by
  have hstart : (start.after before).Exact ((before ++ p.text ++ behind).flatMap Text.units) := by
    rw [List.append_assoc]
    exact exact_after before _
  constructor
  · intro t ht
    obtain ⟨shape, text⟩ := p
    cases shape with
    | blank | comment | flaw => exact nomatch ht
    | token kind =>
        cases ht
        refine ⟨hstart, ?_⟩
        rw [← after_append]
        exact exact_after (before ++ text) behind
  · intro e he
    obtain ⟨shape, text⟩ := p
    cases shape with
    | blank | comment | token => exact absurd he List.not_mem_nil
    | flaw flaw =>
        cases flaw with
        | unterminated | badNumber =>
            obtain rfl := List.mem_singleton.1 he
            exact hstart
        | unexpected =>
            -- a line feed is white space, so it is not among the units
            have hline : '\n'.toNat ∉ text.flatMap Text.units := by
              cases hp with
              | @unexpected c _ hc =>
                  intro hmem
                  obtain rfl := List.mem_singleton.1 (mem_of_mem_units hmem)
                  exact absurd hc.blank (by decide)
            rw [after_eq_behindUnits] at he
            refine exact_unexpectedUnits hline ?_ e he
            rw [← List.flatMap_append]
            exact ⟨behind.flatMap Text.units, List.flatMap_append.symm⟩

/-- **All pieces**, one behind the other. -/
theorem exact_pieces (before cs : List Char) :
    (∀ t ∈ tokensAt (start.after before) (pieces cs),
      t.span.Exact ((before ++ cs).flatMap Text.units)) ∧
    ∀ e ∈ errorsAt (start.after before) (pieces cs),
      e.location.Exact ((before ++ cs).flatMap Text.units) := by
  fun_induction pieces cs generalizing before with
  | case1 => exact ⟨fun _ ht => absurd ht List.not_mem_nil, fun _ he => absurd he List.not_mem_nil⟩
  | case2 c rest ih =>
      have htext := munch_text_append c rest
      obtain ⟨htoken, herror⟩ := exact_piece (munched_munch c rest) before
      obtain ⟨htokens, herrors⟩ := ih (before ++ (munch c rest).1.text)
      rw [List.append_assoc, htext] at htoken herror htokens herrors
      rw [tokensAt_cons, errorsAt_cons, ← after_append]
      constructor
      · intro t ht
        rcases List.mem_append.1 ht with hfirst | hrest
        · exact htoken t (Option.mem_toList.1 hfirst)
        · exact htokens t hrest
      · intro e he
        rcases List.mem_append.1 he with hfirst | hrest
        · exact herror e hfirst
        · exact herrors e hrest

end Piece

/-- A scan with exact places. -/
structure Scan.Exact (units : List Nat) (s : Scan) : Prop where
  tokens : ∀ t ∈ s.tokens, t.span.Exact units
  finish : s.finish.Exact units
  errors : ∀ e ∈ s.errors, e.location.Exact units

/-- **Scanning finds exact places**, through any mixture of strings, comments and errors. -/
theorem exact_scan (source : List Char) : (scan source).Exact (source.flatMap Text.units) := by
  obtain ⟨htokens, herrors⟩ := Piece.exact_pieces [] source
  refine ⟨htokens, ?_, herrors⟩
  have hfinish := Location.exact_after source []
  rwa [List.append_nil] at hfinish

end Lox
