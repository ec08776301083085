import Lox.Text.Unit

/-!
# Locations

A location names a place between two units of a source text: its line and column, counted from one,
and its offset, counted from zero. A span is a pair of locations.

## Contents
- `Location`, `Location.advance`, `Location.after`: places, and how reading moves them.
- `Span`: from one place to another.
-/

namespace Lox

/-- A place in a source text. -/
structure Location where
  line : Nat
  column : Nat
  offset : Nat
deriving DecidableEq, Repr, Inhabited

namespace Location

/-- The place in front of a text. -/
def start : Location := ⟨1, 1, 0⟩

/-- The place behind `c`: a line feed opens a new line, every other character moves the column by
its units. -/
def advance (l : Location) (c : Char) : Location :=
  if c = '\n' then ⟨l.line + 1, 1, l.offset + Text.unitCount c⟩
  else ⟨l.line, l.column + Text.unitCount c, l.offset + Text.unitCount c⟩

/-- The place behind a text that begins at `l`. -/
def after (l : Location) : List Char → Location
  | [] => l
  | c :: cs => (l.advance c).after cs

@[simp] theorem after_nil (l : Location) : l.after [] = l := rfl

@[simp] theorem after_cons (l : Location) (c : Char) (cs : List Char) :
    l.after (c :: cs) = (l.advance c).after cs := rfl

theorem after_append (l : Location) (cs ds : List Char) :
    l.after (cs ++ ds) = (l.after cs).after ds := by
  induction cs generalizing l with
  | nil => rfl
  | cons c cs ih => simp only [List.cons_append, after_cons, ih]

theorem offset_advance (l : Location) (c : Char) :
    (l.advance c).offset = l.offset + Text.unitCount c := by
  unfold advance
  split <;> rfl

/-- Offsets count units. -/
theorem offset_after (l : Location) (cs : List Char) :
    (l.after cs).offset = l.offset + Text.width cs := by
  induction cs generalizing l with
  | nil => simp
  | cons c cs ih => simp only [after_cons, ih, offset_advance, Text.width_cons]; omega

/-- `line:column:offset`. -/
def text (l : Location) : String :=
  String.intercalate ":" [toString l.line, toString l.column, toString l.offset]

end Location

/-- From one place of a source text to another. -/
structure Span where
  start : Location
  stop : Location
deriving DecidableEq, Repr, Inhabited

/-- Both ends, joined by a hyphen. -/
def Span.text (s : Span) : String := s.start.text ++ "-" ++ s.stop.text

end Lox
