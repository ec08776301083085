import Lox.Text.Unit

/-!
# Long lines

A scalar that is written on a line longer than eighty units is broken: a plain or single-quoted
one at single spaces, a double-quoted one anywhere, with a backslash at the end of the line.
Widths and positions count units.

## Contents
- `Wrap`: what is known of a text up to a position.
- `Wrap.breaks?`: the positions at which a text is broken.
- `wrap`: the text, broken.
-/

namespace Lox.Yaml

/-- The number of units that a line should not exceed. -/
def lineWidth : Nat := 80

/-- The number of units that a line may have at least, however far it is indented. -/
def minContentWidth : Nat := 20

/-- A position at which a text is broken. -/
structure Break where
  position : Nat
  /-- Whether a backslash ends the line, behind the unit of this position; otherwise the unit is a
  space that the line end replaces. -/
  escaped : Bool
deriving DecidableEq

/-- What is known of a text up to a position. Positions of escape sequences are increased by one,
and zero while there is none. -/
structure Wrap where
  /-- The position at which the line becomes too long. -/
  limit : Nat
  /-- The latest space of the line that may be broken. -/
  split : Option Nat
  /-- The unit before the position. -/
  previous : Option Nat
  escapeStart : Nat
  escapeEnd : Nat
  /-- The latest break comes first. -/
  breaks : List Break

/-- Whether a unit is a space, a tab or a line end. -/
def isSpaceUnit (u : Nat) : Bool := u == 32 || u == 10 || u == 9

/-- Whether a unit is there and neither a space nor a tab nor a line end. -/
def isSolid (u : Option Nat) : Bool := u.any fun u => !isSpaceUnit u

/-- The number of units of the escape sequence whose letter is `u`, less the backslash. -/
def escapeLength (u : Option Nat) : Nat :=
  if u = some 'x'.toNat then 3
  else if u = some 'u'.toNat then 5
  else if u = some 'U'.toNat then 9
  else 1

namespace Wrap

/-- The length of a full line. -/
def step (indent : Nat) : Nat := max (1 + minContentWidth) (1 + lineWidth - indent)

/-- Passes an escape sequence, of which only the last unit counts as a position. -/
def passEscape (w : Wrap) (us : Array Nat) (i : Nat) : Wrap × Nat :=
  let j := i + escapeLength us[i + 1]?
  ({ w with escapeStart := i + 1, escapeEnd := j + 1 }, j)

/-- The first position from `i` on that has no blank in front of it. -/
def skipBlanks (fuel : Nat) (us : Array Nat) (previous : Option Nat) (i : Nat) : Option Nat × Nat :=
  match fuel with
  | 0 => (previous, i)
  | fuel + 1 =>
    if previous = some 32 ∨ previous = some 9 then skipBlanks fuel us us[i]? (i + 1)
    else (previous, i)

/-- Breaks the line before or at position `i`, where it has become too long. A text in which a line
would have no room for an escape sequence cannot be broken. -/
def breakAt? (w : Wrap) (escapes : Bool) (indent : Nat) (us : Array Nat) (i : Nat) :
    Option (Wrap × Nat) :=
  match w.split.filter (0 < ·) with
  | some s =>
    some ({ w with breaks := ⟨s, false⟩ :: w.breaks, limit := s + step indent, split := none }, i)
  | none =>
    if escapes then
      let (previous, i) := skipBlanks us.size us w.previous i
      let j := if w.escapeEnd < i then i - 2 else w.escapeStart - 2
      if w.breaks.contains ⟨j, true⟩ then none
      else
        some ({ w with
          breaks := ⟨j, true⟩ :: w.breaks
          limit := j + step indent
          split := none
          previous := previous }, i)
    else some (w, i)

/-- Passes the rest of a text from position `i` on. -/
def pass? (escapes : Bool) (indent : Nat) (us : Array Nat) (fuel i : Nat) (w : Wrap) :
    Option Wrap :=
  match fuel, us[i]? with
  | 0, _ | _, none => some w
  | fuel + 1, some u =>
    let (w, i) := if escapes && u == '\\'.toNat then w.passEscape us i else (w, i)
    if u = 10 then
      pass? escapes indent us fuel (i + 1)
        { w with limit := i + indent + step indent, split := none, previous := some u }
    else
      let isSplit := u == 32 && isSolid w.previous && isSolid us[i + 1]?
      let w := if isSplit then { w with split := some i } else w
      let passed := if w.limit ≤ i then w.breakAt? escapes indent us i else some (w, i)
      match passed with
      | none => none
      | some (w, j) =>
        let previous := if j = i then some u else us[j]?
        pass? escapes indent us fuel (j + 1) { w with previous := previous }

/-- The positions at which a text is broken that begins at column `start` of its line. -/
def breaks? (escapes : Bool) (indent : Nat) (start : Option Nat) (us : Array Nat) :
    Option (List Break) :=
  let late := start.any fun n => lineWidth - minContentWidth < n
  let limit := if late then lineWidth - indent else lineWidth - start.getD indent
  let breaks := if late then [⟨0, false⟩] else []
  (pass? escapes indent us us.size 0 ⟨limit, none, none, 0, 0, breaks⟩).map (·.breaks.reverse)

end Wrap

/-- The line behind a break, up to the position `finish`. -/
def lineBehind (indent : Nat) (us : Array Nat) (b : Break) (finish : Nat) : List Nat :=
  let newLine := 10 :: List.replicate indent 32
  let content := (us.extract (b.position + 1) finish).toList
  if b.position = 0 then newLine ++ (us.extract 0 finish).toList
  else if b.escaped then us[b.position]?.toList ++ '\\'.toNat :: newLine ++ content
  else newLine ++ content

/-- The lines behind breaks. -/
def linesBehind (indent : Nat) (us : Array Nat) : List Break → List Nat
  | [] => []
  | [b] => lineBehind indent us b us.size
  | b :: b' :: bs => lineBehind indent us b b'.position ++ linesBehind indent us (b' :: bs)

/-- A text that is broken where a line would be too long; lines behind a break are indented. A short
text is left alone. `start` is the column at which it begins, if that is not the indentation. -/
def wrap (escapes : Bool) (indent : Nat) (start : Option Nat) (text : List Nat) : List Nat :=
  let us := text.toArray
  if us.size ≤ Wrap.step indent then text
  else
    match Wrap.breaks? escapes indent start us with
    | none | some [] => text
    | some (b :: bs) =>
      (if b.position = 0 then [] else (us.extract 0 b.position).toList) ++
        linesBehind indent us (b :: bs)

end Lox.Yaml
