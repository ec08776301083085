import Lox.Decimal.Binary64

/-!
# Reading decimals

A numeral is an optional sign, digits with an optional point, and an optional exponent. Its value is
the double nearest to the decimal that it spells.

## Contents
- `isDigit`, `digitsValue`: runs of decimal digits.
- `value`: the double nearest to `mantissa · 10 ^ exponent`.
- `ofDigits`: the value of a literal such as `12.50`.
- `readNumeral?`: the value of a whole text, when it is a numeral.
-/

namespace Lox.Decimal

/-- An ASCII decimal digit. -/
def isDigit (c : Char) : Bool := '0' ≤ c && c ≤ '9'

/-- The number that a run of digits spells, most significant first. -/
def digitsValue (cs : List Char) : Nat :=
  cs.foldl (fun n c => 10 * n + (c.toNat - '0'.toNat)) 0

/-- Largest number of digits before the point that a finite double can have, with room to spare. -/
def widestMagnitude : Int := 400

/-- The double nearest to `mantissa · 10 ^ exponent`. A magnitude far outside the doubles is decided
from the number of digits alone, so that no huge power is ever computed. -/
def value (mantissa : Nat) (exponent : Int) : Float :=
  let magnitude : Int := ((Nat.toDigits 10 mantissa).length : Int) + exponent
  if mantissa = 0 || magnitude < -widestMagnitude then nearest 0 1
  else if widestMagnitude < magnitude then Float.ofBits (UInt64.ofNat infinityBits)
  else if exponent < 0 then nearest mantissa (Nat.pow 10 (-exponent).toNat)
  else nearest (mantissa * Nat.pow 10 exponent.toNat) 1

/-- The value of the digits `whole`, a point, and the digits `fraction`. -/
def ofDigits (whole fraction : List Char) : Float :=
  value (digitsValue (whole ++ fraction)) (-(fraction.length : Int))

/-- The value of a literal: digits, optionally followed by a point and more digits. -/
def ofLiteral (cs : List Char) : Float :=
  let (whole, rest) := cs.span isDigit
  ofDigits whole (rest.drop 1)

/-- An exponent part: the mark `e` or `E`, an optional sign, and at least one digit. -/
def readExponent? : List Char → Option Int
  | [] => some 0
  | mark :: rest =>
    if mark != 'e' && mark != 'E' then none
    else
      let (negative, digits) :=
        match rest with
        | '-' :: ds => (true, ds)
        | '+' :: ds => (false, ds)
        | ds => (false, ds)
      if digits.isEmpty || !digits.all isDigit then none
      else some (if negative then -(digitsValue digits : Int) else digitsValue digits)

/-- The value of an unsigned numeral: digits with an optional point, on at least one side of which
there is a digit, and an optional exponent part. -/
def readUnsigned? (cs : List Char) : Option Float :=
  let (whole, rest) := cs.span isDigit
  let (fraction, rest) :=
    match rest with
    | '.' :: rest => rest.span isDigit
    | rest => ([], rest)
  if whole.isEmpty && fraction.isEmpty then none
  else
    (readExponent? rest).map fun e =>
      value (digitsValue (whole ++ fraction)) (e - fraction.length)

/-- The value of a numeral with an optional sign. -/
def readNumeral? : List Char → Option Float
  | '-' :: cs => (readUnsigned? cs).map fun x => -x
  | '+' :: cs => readUnsigned? cs
  | cs => readUnsigned? cs

end Lox.Decimal
