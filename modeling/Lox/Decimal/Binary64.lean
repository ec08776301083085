/-!
# Doubles as exact numbers

A finite double is an integer times a power of two. This module takes doubles apart and builds the
double nearest to a quotient, so that texts and roundings are computed exactly.

## Contents
- `Parts` and `parts`: sign, significand and exponent.
- `roundDiv`: a quotient rounded to the nearest integer, ties to even.
- `nearest`: the double nearest to a quotient of two naturals.
- `toNat?` and `isIntegral`: doubles that are whole numbers.
-/

namespace Lox.Decimal

/-- What a double stands for. A finite one is `significand · 2 ^ exponent`, negated when
`negative`. -/
inductive Parts
  | notANumber
  | infinite (negative : Bool)
  | finite (negative : Bool) (significand : Nat) (exponent : Int)
deriving DecidableEq, Repr

/-- Exponent of the smallest positive double. -/
def leastExponent : Int := -1074

/-- The parts of the double with the bit pattern `bits`. -/
def partsOfBits (bits : Nat) : Parts :=
  let negative := bits / Nat.pow 2 63 % 2 == 1
  let field := bits / Nat.pow 2 52 % Nat.pow 2 11
  let fraction := bits % Nat.pow 2 52
  if field = 2047 then
    if fraction = 0 then .infinite negative else .notANumber
  else if field = 0 then .finite negative fraction leastExponent
  else .finite negative (fraction + Nat.pow 2 52) (leastExponent + (field - 1 : Nat))

/-- The parts of a double. -/
def parts (x : Float) : Parts := partsOfBits x.toBits.toNat

/-- `a / b` rounded to the nearest natural number; a tie goes to the even one. -/
def roundDiv (a b : Nat) : Nat :=
  let quotient := a / b
  let rest := a % b
  if 2 * rest > b || (2 * rest == b && quotient % 2 == 1) then quotient + 1 else quotient

/-- Bit pattern of positive infinity. -/
def infinityBits : Nat := 2047 * Nat.pow 2 52

/-- Bit pattern of the double nearest to `num / den`, ties to the even significand; what exceeds the
largest double is infinite. The exponent is first guessed from the bit lengths so that the quotient
has 52 or 53 bits, and is then corrected by one. -/
def nearestBits (num den : Nat) : Nat :=
  if num = 0 then 0
  else
    let guess : Int := (num.log2 : Int) - (den.log2 : Int) - 52
    let quotient (e : Int) : Nat :=
      if e < 0 then num * Nat.pow 2 (-e).toNat / den else num / (den * Nat.pow 2 e.toNat)
    let normal := if quotient guess < Nat.pow 2 52 then guess - 1 else guess
    let exponent := max normal leastExponent
    let significand :=
      if exponent < 0 then roundDiv (num * Nat.pow 2 (-exponent).toNat) den
      else roundDiv num (den * Nat.pow 2 exponent.toNat)
    -- A significand without its leading bit has the exponent field zero.
    let bits := (exponent - leastExponent).toNat * Nat.pow 2 52 + significand
    min bits infinityBits

/-- The double nearest to `num / den`. -/
def nearest (num den : Nat) : Float := Float.ofBits (UInt64.ofNat (nearestBits num den))

/-- The natural number that `x` equals, if it equals one. -/
def toNat? (x : Float) : Option Nat :=
  match parts x with
  | .finite negative significand exponent =>
    if negative && significand != 0 then none
    else if exponent < 0 then
      let unit := Nat.pow 2 (-exponent).toNat
      if significand % unit = 0 then some (significand / unit)
      else none
    else some (significand * Nat.pow 2 exponent.toNat)
  | _ => none

/-- Whether `x` is a whole number. -/
def isIntegral (x : Float) : Bool :=
  match parts x with
  | .finite _ significand exponent =>
    0 ≤ exponent || significand % Nat.pow 2 (-exponent).toNat == 0
  | _ => false

/-- Whether `x` is the zero with a sign. -/
def isNegativeZero (x : Float) : Bool :=
  match parts x with
  | .finite negative significand _ => negative && significand == 0
  | _ => false

end Lox.Decimal
