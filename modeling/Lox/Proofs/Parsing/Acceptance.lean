import Lox.Proofs.Parsing.Completeness
import Lox.Proofs.Parsing.Soundness
import Lox.Proofs.Parsing.Nesting

/-!
# The language of the parser

Soundness and completeness put together: a source text without lexical errors is parsed exactly when
its tokens derive a program, and the tree is the one of the derivation.

## Contents
- `parse_ok_iff`: what a successful parse has done.
- `parse_iff_derivable`: the language of the parser.
-/

namespace Lox.Parsing

open Grammar

/-- A parse succeeds when there are no lexical errors and the tokens are read as a program. -/
theorem parse_ok_iff (source : List Char) (p : Program) :
    Program.parse source = .ok p ↔
      (scan source).errors = [] ∧
        ∃ c, program .strict (Cursor.ofScan (scan source)) = .ok p c := by
  unfold Program.parse scan?
  cases (scan source).errors with
  | cons e es =>
      constructor
      · intro h
        exact nomatch h
      · intro h
        exact nomatch h.1
  | nil =>
      dsimp only
      cases program .strict (Cursor.ofScan (scan source)) with
      | ok q c =>
          constructor
          · rintro ⟨⟩
            exact ⟨rfl, c, rfl⟩
          · rintro ⟨_, c', h⟩
            cases h
            rfl
      | error e c =>
          constructor
          · intro h
            exact nomatch h
          · rintro ⟨_, c', h⟩
            exact nomatch h

/-- **The parser accepts exactly its grammar.** A source text is parsed when it has no lexical error
and its tokens derive a program within 200 nesting levels, with every `else` at its nearest `if`;
the tree of the parse, places apart, is the tree of that derivation. Reading every `else` in this way
gives up no program of the grammar without limits, in which any `if` may take it. -/
theorem parse_iff_derivable (source : List Char) :
    (∀ body : List Decl,
      (∃ p, Program.parse source = .ok p ∧ Decl.bareAll p.body = body) ↔
        (scan source).errors = [] ∧
          Declarations True (.levels 200) (scan source).tokens body []) ∧
      ((∃ body, Declarations False .unlimited (scan source).tokens body []) ↔
        ∃ n body, Declarations True (.levels n) (scan source).tokens body []) := by
  refine ⟨fun body => ?_, exists_levels_iff _⟩
  constructor
  · rintro ⟨p, hparse, rfl⟩
    obtain ⟨hlexical, c, hprogram⟩ := (parse_ok_iff source p).1 hparse
    obtain ⟨_, hderives⟩ := Reads.program _ _ _ hprogram
    exact ⟨hlexical, hderives⟩
  · rintro ⟨hlexical, hderives⟩
    obtain ⟨p, c, hprogram, hbody, _⟩ :=
      accepts_program hderives (Cursor.ofScan (scan source)) rfl rfl
    exact ⟨p, (parse_ok_iff source p).2 ⟨hlexical, c, hprogram⟩, hbody⟩

end Lox.Parsing
