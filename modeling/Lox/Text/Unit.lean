/-!
# Sixteen-bit units

Positions in a source text count 16-bit units: a character of the basic plane is one unit, every
other character is two, a high half followed by a low half. Names are listed in the order of their
units.

## Contents
- `units` and `unitCount`: the units of a character, and how many there are.
- `width`: the units of a text.
- `spellUnit`: what is shown for a unit on its own.
- `isPaired`, `ofUnits`, `toUnits`: sequences of units and texts.
- `unitsLt` and `sortByUnits`: the order of texts, unit by unit.
-/

namespace Lox.Text

/-- The units that encode `c`. -/
def units (c : Char) : List Nat :=
  if c.toNat < 0x10000 then [c.toNat]
  else [0xD800 + (c.toNat - 0x10000) / 0x400, 0xDC00 + (c.toNat - 0x10000) % 0x400]

/-- How many units encode `c`: two outside the basic plane, otherwise one. -/
def unitCount (c : Char) : Nat := if c.toNat < 0x10000 then 1 else 2

theorem length_units (c : Char) : (units c).length = unitCount c := by
  unfold units unitCount
  split <;> rfl

theorem unitCount_pos (c : Char) : 0 < unitCount c := by
  unfold unitCount
  split <;> omega

/-- The number of units of a text. -/
def width : List Char → Nat
  | [] => 0
  | c :: cs => unitCount c + width cs

@[simp] theorem width_nil : width [] = 0 := rfl

@[simp] theorem width_cons (c : Char) (cs : List Char) :
    width (c :: cs) = unitCount c + width cs := rfl

theorem width_append (cs ds : List Char) : width (cs ++ ds) = width cs + width ds := by
  induction cs with
  | nil => simp
  | cons c cs ih => simp only [List.cons_append, width_cons, ih]; omega

/-- Half of a pair: a unit that encodes no character on its own. -/
def isHalf (u : Nat) : Bool := 0xD800 ≤ u && u < 0xE000

/-- Upper-case hexadecimal digits of `n`, at least four. -/
def hex4 (n : Nat) : String :=
  let digits := (Nat.toDigits 16 n).map Char.toUpper
  String.ofList (List.replicate (4 - digits.length) '0' ++ digits)

/-- What is shown for a single unit: its character, or the number of a half in angle brackets. -/
def spellUnit (u : Nat) : String :=
  if isHalf u then "<U+" ++ hex4 u ++ ">" else String.singleton (Char.ofNat u)

/-- The character that a high half and a low half encode together. -/
def joinHalves (high low : Nat) : Char :=
  Char.ofNat (0x10000 + (high - 0xD800) * 0x400 + (low - 0xDC00))

/-- Whether a high half and a low half stand in this order. -/
def isPair (u v : Nat) : Bool := 0xD800 ≤ u && u < 0xDC00 && 0xDC00 ≤ v && v < 0xE000

/-- Whether every half stands beside its other half, so that the units encode characters. -/
def isPaired : List Nat → Bool
  | [] => true
  | [u] => !isHalf u
  | u :: v :: rest => if isPair u v then isPaired rest else !isHalf u && isPaired (v :: rest)

/-- A text followed by what a sequence of units shows. -/
def appendUnits (text : String) : List Nat → String
  | [] => text
  | [u] => text ++ spellUnit u
  | u :: v :: rest =>
    if isPair u v then appendUnits (text.push (joinHalves u v)) rest
    else appendUnits (text ++ spellUnit u) (v :: rest)

/-- The text of a sequence of units. A half without its other half is shown by its number. -/
def ofUnits (us : List Nat) : String := appendUnits "" us

/-- The units of a text. -/
def toUnits (text : String) : List Nat := text.toList.flatMap units

/-- Whether `a` comes before `b` when both are compared unit by unit. -/
def unitsLt (a b : String) : Bool :=
  decide (toUnits a < toUnits b)

/-- The texts in the order of their units; equal texts keep their order. -/
def sortByUnits (texts : List String) : List String :=
  texts.mergeSort fun a b => !unitsLt b a

end Lox.Text
