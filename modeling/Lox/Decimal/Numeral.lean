import Lox.Decimal.Shortest

/-!
# The text of a number

Numbers are shown with the fewest digits that read back, in positional form for ordinary magnitudes
and with an exponent otherwise.

## Contents
- `Layout` and `numeralLayout`: where positional form ends.
- `Layout.write`: digits laid out as a text.
- `text`: what a program prints for a number; a zero never shows its sign.
- `exponentialText`: the text with an exponent for every magnitude.
- `signedText`: the text of `text`, with the sign of a zero.
-/

namespace Lox.Decimal

/-- Which decimals are written positionally: those whose point lies from `leastPoint` to
`greatestPoint`. -/
structure Layout where
  leastPoint : Int
  greatestPoint : Int

/-- Numbers from one millionth up to, but not including, `10 ^ 21` are written positionally. -/
def numeralLayout : Layout := ⟨-5, 21⟩

/-- The digits of `n` without the zeros at their end. -/
def significantDigits (n : Nat) : List Char :=
  ((Nat.toDigits 10 n).reverse.dropWhile (· == '0')).reverse

/-- Decimal text of an integer with its sign in front, also when it is positive. -/
def signedExponent (e : Int) : List Char :=
  (if e < 0 then '-' else '+') :: Nat.toDigits 10 e.natAbs

/-- The decimal `0.digits · 10 ^ point` as a text. -/
def Layout.write (layout : Layout) (digits : List Char) (point : Int) : List Char :=
  if layout.leastPoint ≤ point && point ≤ layout.greatestPoint then
    if point ≤ 0 then '0' :: '.' :: List.replicate (-point).toNat '0' ++ digits
    else
      let whole := point.toNat
      if digits.length ≤ whole then digits ++ List.replicate (whole - digits.length) '0'
      else digits.take whole ++ '.' :: digits.drop whole
  else
    let exponent := signedExponent (point - 1)
    match digits with
    | [] => []
    | [d] => d :: 'e' :: exponent
    | d :: rest => d :: '.' :: rest ++ 'e' :: exponent

/-- The text of a number that is not zero, or the text `zero`. -/
def Layout.text (layout : Layout) (zero : String) (x : Float) : String :=
  match parts x with
  | .notANumber => "NaN"
  | .infinite negative => if negative then "-Infinity" else "Infinity"
  | .finite negative significand exponent =>
    if significand = 0 then zero
    else
      let d := shortest significand exponent
      let body := layout.write (significantDigits d.significand) d.point
      String.ofList (if negative then '-' :: body else body)

/-- The text of a number. -/
def text (x : Float) : String := numeralLayout.text "0" x

/-- No number is written positionally. -/
def exponentialLayout : Layout := ⟨1, 0⟩

/-- The text of a number with an exponent, however large it is. -/
def exponentialText (x : Float) : String := exponentialLayout.text "0e+0" x

/-- The text of a number in which a negative zero shows its sign. -/
def signedText (x : Float) : String := if isNegativeZero x then "-0" else text x

end Lox.Decimal
