import Lox.Decimal.Reading

/-!
# Rounding to decimal places

`roundTo x places` scales by a power of ten, rounds halves away from zero, and scales back. Every
step is a double operation, so a scale that overflows shows in the result.

## Contents
- `roundHalfUp`: a non-negative double rounded to a whole one.
- `roundAway`: the same for both signs.
- `roundTo`: rounding to a number of decimal places.
-/

namespace Lox.Decimal

/-- The whole number nearest to a non-negative `x`; a half goes up. The difference to the floor is
exact, so the comparison is too. -/
def roundHalfUp (x : Float) : Float :=
  let floor := x.floor
  if x - floor ≥ 0.5 then floor + 1 else floor

/-- One with the sign of `x`; a zero and a value that is no number stand for themselves. -/
def signOf (x : Float) : Float := if x > 0 then 1 else if x < 0 then -1 else x

/-- The whole number nearest to `x`; a half goes away from zero. -/
def roundAway (x : Float) : Float := signOf x * roundHalfUp x.abs

/-- The double nearest to `10 ^ places`. -/
def powerOfTen (places : Nat) : Float := value 1 places

/-- `x` rounded to `places` digits after the point. -/
def roundTo (x : Float) (places : Nat) : Float :=
  let scale := powerOfTen places
  roundAway (x * scale) / scale

end Lox.Decimal
