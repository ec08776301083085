import Lox.Decimal.Binary64

/-!
# Shortest decimals

Every finite double is the nearest one to an interval of reals. Among the decimals of that interval
this module chooses one with the fewest digits, and among those the one nearest to the double. The
search works in exact integer arithmetic.

## Contents
- `Digits`: a significand of decimal digits with the position of its point.
- `Grid`: the decimals with a given number of places, compared with the interval of a double.
- `shortest`: the choice.
-/

namespace Lox.Decimal

/-- The decimal `0.d₁d₂… · 10 ^ point`, where `d₁d₂…` are the digits of `significand`. -/
structure Digits where
  significand : Nat
  point : Int
deriving DecidableEq, Repr

/-- Number of decimal digits of `n`; zero has one. -/
def digitCount (n : Nat) : Nat := (Nat.toDigits 10 n).length

/-- The reals that round to a double. All quantities are multiples of a quarter of its last binary
place, so that both ends are whole. -/
structure Interval where
  /-- Four times the significand of the double. -/
  value : Nat
  /-- Lower end of the reals that round to the double. -/
  low : Nat
  /-- Upper end of the reals that round to the double. -/
  high : Nat
  /-- Whether the ends round to the double too: ties go to even significands. -/
  closed : Bool
  /-- Exponent of two of the unit. -/
  exponent : Int

/-- The interval of `significand · 2 ^ exponent`. Below a power of two the doubles are twice as
dense, except at the smallest exponent. -/
def interval (significand : Nat) (exponent : Int) : Interval where
  value := 4 * significand
  low := 4 * significand - (if significand = Nat.pow 2 52 ∧ leastExponent < exponent then 1 else 2)
  high := 4 * significand + 2
  closed := significand % 2 == 0
  exponent := exponent - 2

/-- The decimals `d · 10 ^ place`. For a comparison with `t` units of an interval, both sides are
brought to whole numbers: `d · decimal` against `t · binary`. -/
structure Grid where
  decimal : Nat
  binary : Nat

/-- The grid of `10 ^ place` against units of `2 ^ exponent`. -/
def grid (place exponent : Int) : Grid where
  decimal := Nat.pow 10 place.toNat * Nat.pow 2 (-exponent).toNat
  binary := Nat.pow 2 exponent.toNat * Nat.pow 10 (-place).toNat

/-- Whether the grid point `d` lies in the interval. -/
def Grid.holds (g : Grid) (i : Interval) (d : Nat) : Bool :=
  if i.closed then i.low * g.binary ≤ d * g.decimal && d * g.decimal ≤ i.high * g.binary
  else i.low * g.binary < d * g.decimal && d * g.decimal < i.high * g.binary

/-- The grid point of the interval nearest to its double, if it has one. The two neighbours of the
double are the only candidates; a tie goes to the even one. -/
def Grid.nearest? (g : Grid) (i : Interval) : Option Nat :=
  let below := i.value * g.binary / g.decimal
  let above := below + 1
  match g.holds i below, g.holds i above with
  | true, true =>
    let down := i.value * g.binary - below * g.decimal
    let up := above * g.decimal - i.value * g.binary
    if down < up || (down == up && below % 2 == 0) then some below else some above
  | true, false => some below
  | false, true => some above
  | false, false => none

/-- The exponent `k` with `10 ^ (k - 1) ≤ v < 10 ^ k` for the double `v` of an interval. It is
guessed from the binary length and corrected by comparison. -/
def magnitude (i : Interval) : Int :=
  let guess : Int := ((i.value.log2 : Int) + i.exponent) * 30103 / 100000
  let reaches (k : Int) : Bool :=
    let g := grid k i.exponent
    g.decimal ≤ i.value * g.binary
  if reaches (guess + 1) then guess + 2 else if reaches guess then guess + 1 else guess

/-- Tries the grids with `digits`, `digits + 1`, … significant digits; `left` bounds the attempts.
-/
def shortestFrom (i : Interval) (k : Int) : (digits left : Nat) → Digits
  | _, 0 => ⟨0, 0⟩
  | digits, left + 1 =>
    let place := k - digits
    match (grid place i.exponent).nearest? i with
    | some d => ⟨d, place + digitCount d⟩
    | none => shortestFrom i k (digits + 1) left

/-- The shortest decimal of the double `significand · 2 ^ exponent`. Seventeen digits always suffice
for a double. -/
def shortest (significand : Nat) (exponent : Int) : Digits :=
  if significand = 0 then ⟨0, 1⟩
  else
    let i := interval significand exponent
    shortestFrom i (magnitude i) 1 17

end Lox.Decimal
