import Lox.Datum
import Lox.Text.Unit

/-!
# Scalars of a document

A scalar is written plainly or in quotes. Line ends inside it are folded: a single one becomes a
blank, and of several all but the first are kept; the blanks around them are dropped. A plain scalar
then means a value by its spelling; a quoted one is always a string.

## Contents
- `plainValue`: what a plain scalar means.
- `Fold`, `Fold.units?`: folding, with or without escape sequences.
- `Style`, `folded`, `singleQuoted?`, `doubleQuoted?`: the three ways to write a scalar.
-/

namespace Lox.Yaml

/-! ## Spellings -/

/-- The value of a digit in any base up to sixteen. -/
def digitValue? (c : Char) : Option Nat :=
  if '0' ≤ c && c ≤ '9' then some (c.toNat - '0'.toNat)
  else if 'a' ≤ c && c ≤ 'f' then some (c.toNat - 'a'.toNat + 10)
  else if 'A' ≤ c && c ≤ 'F' then some (c.toNat - 'A'.toNat + 10)
  else none

/-- The value of a digit in the given base. -/
def digitIn? (base : Nat) (c : Char) : Option Nat := (digitValue? c).filter (· < base)

/-- The number that a run of digits spells in the given base. -/
def natIn? (base : Nat) (cs : List Char) : Option Nat :=
  if cs.isEmpty then none
  else cs.foldlM (fun n c => (digitIn? base c).map (base * n + ·)) 0

/-- An infinity, with an optional sign. -/
def infinity? (text : String) : Option Float :=
  if text ∈ [".inf", ".Inf", ".INF", "+.inf", "+.Inf", "+.INF"] then
    some (Float.ofBits (UInt64.ofNat Decimal.infinityBits))
  else if text ∈ ["-.inf", "-.Inf", "-.INF"] then
    some (-Float.ofBits (UInt64.ofNat Decimal.infinityBits))
  else none

/-- The number that a plain scalar spells: a decimal, an octal or hexadecimal integer, an
infinity, or no number. -/
def number? (cs : List Char) : Option Float :=
  match cs with
  | '0' :: 'o' :: digits => (natIn? 8 digits).map fun n => Decimal.nearest n 1
  | '0' :: 'x' :: digits => (natIn? 16 digits).map fun n => Decimal.nearest n 1
  | cs =>
    let text := String.ofList cs
    if text ∈ [".nan", ".NaN", ".NAN"] then some (0 / 0)
    else (infinity? text).orElse fun _ => Decimal.readNumeral? cs

/-- What a plain scalar means. A spelling that is neither null nor a truth value nor a number is a
string. -/
def plainValue (cs : List Char) : Datum :=
  let text := String.ofList cs
  if text ∈ ["", "~", "null", "Null", "NULL"] then .null
  else if text ∈ ["true", "True", "TRUE"] then .bool true
  else if text ∈ ["false", "False", "FALSE"] then .bool false
  else
    match number? cs with
    | some x => .number x
    | none => .string text

/-! ## Folding -/

/-- What has been passed since the last character that was taken over. -/
inductive Fold.Held
  /-- Blanks, of which nothing is known yet: they count unless the line ends. -/
  | blanks (cs : List Char)
  /-- Line ends, and blanks that do not count. -/
  | breaks (count : Nat)
  /-- An escaped line end, and blanks that do not count. -/
  | joint

/-- What the next character belongs to. -/
inductive Fold.Mode
  | text
  /-- An escape sequence that has just begun. -/
  | escape
  /-- A number of hexadecimal digits that are still missing, and the number read so far. -/
  | digits (missing value : Nat)

/-- A scalar that is being folded. -/
structure Fold where
  /-- The units of the scalar so far, the last one first. -/
  units : List Nat
  held : Fold.Held
  mode : Fold.Mode

namespace Fold

def start : Fold := ⟨[], .blanks [], .text⟩

/-- The characters that stand for what was held back. -/
def Held.chars : Held → List Char
  | .blanks cs => cs
  | .breaks 1 => [' ']
  | .breaks count => List.replicate (count - 1) '\n'
  | .joint => []

/-- Holds back one more blank. -/
def Held.blank (c : Char) : Held → Held
  | .blanks cs => .blanks (cs ++ [c])
  | held => held

/-- Holds back a line end. -/
def Held.lineEnd : Held → Held
  | .breaks count => .breaks (count + 1)
  | _ => .breaks 1

/-- Adds units. -/
def push (f : Fold) (us : List Nat) : Fold := { f with units := us.reverse ++ f.units }

/-- Adds what was held back. -/
def release (f : Fold) : Fold :=
  { f.push (f.held.chars.flatMap Text.units) with held := .blanks [] }

/-- The characters that an escape sequence of one letter stands for. -/
def escaped? (c : Char) : Option Char :=
  [('0', '\x00'), ('a', '\x07'), ('b', '\x08'), ('e', '\x1b'), ('f', '\x0c'), ('n', '\n'),
   ('r', '\r'), ('t', '\t'), ('v', '\x0b'), ('N', '\u0085'), ('_', '\u00a0'), ('L', '\u2028'),
   ('P', '\u2029'), (' ', ' '), ('"', '"'), ('/', '/'), ('\\', '\\'), ('\t', '\t')].lookup c

/-- How many hexadecimal digits follow a letter in an escape sequence. -/
def digitCount? (c : Char) : Option Nat := [('x', 2), ('u', 4), ('U', 8)].lookup c

/-- The units of a code point. -/
def codeUnits? (n : Nat) : Option (List Nat) :=
  if n < 0x10000 then some [n]
  else if n < 0x110000 then some (Text.units (Char.ofNat n))
  else none

/-- Passes a character of ordinary text. -/
def passText (escapes : Bool) (f : Fold) (c : Char) : Fold :=
  if c = ' ' ∨ c = '\t' then { f with held := f.held.blank c }
  else if c = '\n' then { f with held := f.held.lineEnd }
  else if escapes && c = '\\' then { f.release with mode := .escape }
  else f.release.push (Text.units c)

/-- Passes a character. -/
def pass? (escapes : Bool) (f : Fold) (c : Char) : Option Fold :=
  match f.mode with
  | .text => some (passText escapes f c)
  | .escape =>
    if c = '\n' then some { f with held := .joint, mode := .text }
    else
      match escaped? c, digitCount? c with
      | some d, _ => some { f.push (Text.units d) with mode := .text }
      | none, some count => some { f with mode := .digits count 0 }
      | none, none => none
  | .digits missing value =>
    match digitIn? 16 c with
    | none => none
    | some d =>
      let value := 16 * value + d
      if missing = 1 then
        (codeUnits? value).map fun us => { f.push us with mode := .text }
      else some { f with mode := .digits (missing - 1) value }

/-- The units of a scalar whose text has been passed. An escape sequence that is still open takes
the quote behind the text. -/
def units? (f : Fold) : Option (List Nat) :=
  match f.mode with
  | .text => some f.release.units.reverse
  | .escape => some (f.push (Text.units '"')).units.reverse
  | .digits _ _ => none

end Fold

/-! ## Ways to write a scalar -/

/-- How a scalar is written. -/
inductive Style
  | plain
  | single
  | double
deriving DecidableEq, Repr

/-- A scalar without escape sequences, with its line ends folded. -/
def folded (cs : List Char) : List Char :=
  match (cs.foldlM (Fold.pass? false) Fold.start).bind (·.units?) with
  | some us => (Text.ofUnits us).toList
  | none => []

/-- What stands between two quotes. The quote behind it may be part of it: a scalar that is not
closed before the text ends is closed by the quote with which the text ends. -/
def between? (quote : Char) (cs : List Char) : Option (List Char) :=
  if 2 ≤ cs.length ∧ cs.getLast? = some quote then some cs.tail.dropLast else none

/-- Two single quotes in a row stand for one. -/
def mergeQuotes : List Char → List Char
  | '\'' :: '\'' :: cs => '\'' :: mergeQuotes cs
  | c :: cs => c :: mergeQuotes cs
  | [] => []

/-- The units of a scalar in single quotes. -/
def singleQuoted? (cs : List Char) : Option (List Nat) :=
  (between? '\'' cs).map fun inside => (mergeQuotes (folded inside)).flatMap Text.units

/-- The units of a scalar in double quotes, when its escape sequences are right. -/
def doubleQuoted? (cs : List Char) : Option (List Nat) :=
  (between? '"' cs).bind fun inside =>
    (inside.foldlM (Fold.pass? true) Fold.start).bind (·.units?)

end Lox.Yaml
