import Lox.Yaml.Node
import Lox.Yaml.Wrap

/-!
# Nodes in brackets

The name that a node is as a key: a scalar is the text of its value, and a collection is written
out in brackets. Scalars keep the way in which they are written as far as it is right inside
brackets, and numbers keep their base and the number of their places. A collection that fits on a
line is written on one line.

## Contents
- `numberText`: numbers.
- `escapeText`, `writeString`: strings.
- `Node.inline`: nodes in brackets.
- `Node.keyText`, `Node.toDatum`: nodes as keys and as values.
-/

namespace Lox.Yaml

open Text (toUnits)

/-! ## Numbers -/

/-- How many places a numeral shows behind the point: those that it has if the last one is a zero.
-/
def shownPlaces (text : List Char) : Nat :=
  if text.getLast? = some '0' ∧ text.contains '.' then (text.dropWhile (· != '.')).length - 1 else 0

/-- A numeral with at least as many places behind the point. -/
def padPlaces (places : Nat) (text : String) : String :=
  let cs := text.toList
  if places = 0 ∨ cs.contains 'e' then text
  else
    let shown := (cs.dropWhile (· != '.')).length - 1
    let point := if cs.contains '.' then "" else "."
    text ++ point ++ String.ofList (List.replicate (places - shown) '0')

/-- The text of a number that is spelled by `spelling`. -/
def numberText (spelling : List Char) (x : Float) : String :=
  if x.isNaN then ".nan"
  else if x.isInf then if x < 0 then "-.inf" else ".inf"
  else
    match spelling with
    | '0' :: 'o' :: _ =>
      "0o" ++ String.ofList (Nat.toDigits 8 ((Decimal.toNat? x).getD 0))
    | '0' :: 'x' :: _ =>
      "0x" ++ String.ofList (Nat.toDigits 16 ((Decimal.toNat? x).getD 0))
    | _ =>
      if spelling.any fun c => c == 'e' || c == 'E' then Decimal.exponentialText x
      else padPlaces (shownPlaces spelling) (Decimal.signedText x)

/-! ## Strings -/

/-- Where a node is written. -/
structure Place where
  indent : Nat
  /-- Whether it is a key on one line with its colon. -/
  isKey : Bool
  /-- The column at which it begins, if it is behind a key. -/
  start : Option Nat

/-- A unit that only double quotes can hold: a control character or half of a pair. -/
def isControl (u : Nat) : Bool :=
  (u < 32 && u != 9 && u != 10) || (127 ≤ u && u < 160)

/-- Two lower-case hexadecimal digits. -/
def hex2 (u : Nat) : String :=
  let digits := Nat.toDigits 16 u
  String.ofList (List.replicate (2 - digits.length) '0' ++ digits)

/-- The escape sequence for a unit that cannot stand between double quotes as it is. -/
def escape (u : Nat) : List Nat :=
  let named : List (Nat × String) :=
    [(34, "\\\""), (92, "\\\\"), (8, "\\b"), (12, "\\f"), (10, "\\n"), (13, "\\r"), (9, "\\t"),
     (0, "\\0"), (7, "\\a"), (11, "\\v"), (27, "\\e")]
  match named.lookup u with
  | some text => toUnits text
  | none =>
    if u < 32 then toUnits ("\\x" ++ hex2 u)
    else if Text.isHalf u then toUnits ("\\u" ++ String.ofList (Nat.toDigits 16 u))
    else [u]

/-- The number of units of a unit in its plainest escape sequence. -/
def escapeWidth (u : Nat) : Nat :=
  if u = 34 ∨ u = 92 ∨ u = 8 ∨ u = 12 ∨ u = 10 ∨ u = 13 ∨ u = 9 then 2
  else if u < 32 then 6
  else 1

/-- The sum of numbers. -/
def total (ns : List Nat) : Nat := ns.foldl (· + ·) 0

/-- The number of units of a string between double quotes in which every line end is escaped. -/
def quotedWidth (us : List Nat) : Nat :=
  let halves := if Text.isPaired us then 0 else (us.filter Text.isHalf).length
  2 + total (us.map escapeWidth) + 5 * halves

/-- The number of units from which on a string in double quotes goes over several lines. -/
def minLinesWidth : Nat := 40

/-- What stands between double quotes. `broken` tells whether line ends inside the string are
written as such: the first of them twice, because one is folded away. `inBreak` tells that one is
in front. -/
def escapeText (broken : Bool) (indent : Nat) (inBreak : Bool) : List Nat → List Nat
  | [] => []
  | 32 :: 10 :: us => toUnits "\\ " ++ escapeText broken indent false (10 :: us)
  | [10] => escape 10
  | 10 :: u :: us =>
    if broken then
      let next := u :: us
      (if inBreak then [10] else [10, 10]) ++
        if u = 10 ∧ !us.isEmpty then escapeText broken indent true next
        else
          List.replicate indent 32 ++ (if u = 32 then ['\\'.toNat] else []) ++
            escapeText broken indent false next
    else escape 10 ++ escapeText broken indent false (u :: us)
  | [u] => escape u
  | u :: v :: us =>
    if Text.isPair u v then u :: v :: escapeText broken indent false us
    else escape u ++ escapeText broken indent false (v :: us)
termination_by us => us.length

/-- A string in double quotes. -/
def writeDouble (p : Place) (us : List Nat) : List Nat :=
  let broken := !p.isKey && minLinesWidth ≤ quotedWidth us
  let text := 34 :: escapeText broken p.indent false us ++ [34]
  if p.isKey then text else wrap true p.indent p.start text

/-- Doubles runs of line ends and indents what stands behind them. -/
def spreadLines (indent : Nat) : List Nat → List Nat
  | [] => []
  | 10 :: us =>
    if us.head? = some 10 then 10 :: spreadLines indent us
    else 10 :: 10 :: List.replicate indent 32 ++ spreadLines indent us
  | u :: us => u :: spreadLines indent us

/-- Whether two neighbours in a string are as told. -/
def hasNeighbours (test : Nat → Nat → Bool) (us : List Nat) : Bool :=
  (us.zip us.tail).any fun (u, v) => test u v

/-- Whether a unit is a space or a tab. -/
def isBlankUnit (u : Nat) : Bool := u == 32 || u == 9

/-- A string in single quotes, or in double quotes if line ends do not allow that. -/
def writeSingle (p : Place) (us : List Nat) : List Nat :=
  let apart (u v : Nat) := (isBlankUnit u && v == 10) || (u == 10 && isBlankUnit v)
  if (p.isKey && us.contains 10) || hasNeighbours apart us then writeDouble p us
  else
    let doubled := us.flatMap fun u => if u = 39 then [39, 39] else [u]
    let text := 39 :: spreadLines p.indent doubled ++ [39]
    if p.isKey then text else wrap false p.indent p.start text

/-- A string in quotes: in single ones if it holds double quotes only. -/
def writeQuoted (p : Place) (us : List Nat) : List Nat :=
  if us.contains 34 && !us.contains 39 then writeSingle p us else writeDouble p us

/-- Whether a string cannot be written plainly inside brackets. -/
def needsQuotes (us : List Nat) : Bool :=
  let isOne (s : String) (u : Nat) := (toUnits s).contains u
  us.any (isOne "[]\x7b\x7d,") ||
    us.head?.any (isOne "\n\t ,[]\x7b\x7d#&*!|>'\"%@\x60") ||
    us == toUnits "?" || us == toUnits "-" ||
    (us.head?.any (isOne "?-") && us.tail.head?.any isBlankUnit) ||
    hasNeighbours (fun u v => isOne "\n:" u && isBlankUnit v) us ||
    hasNeighbours (fun u v => isBlankUnit u && v == 10) us ||
    hasNeighbours (fun u v => isSpaceUnit u && v == '#'.toNat) us ||
    us.getLast?.any (isOne "\n\t :")

/-- A string written plainly, or in quotes if that is not possible. -/
def writePlain (p : Place) (us : List Nat) : List Nat :=
  if (p.isKey && us.contains 10) || needsQuotes us then writeQuoted p us
  else
    let text := spreadLines p.indent us
    if p.isKey then text else wrap false p.indent p.start text

/-- A string in the given style. Control characters and halves of pairs need double quotes. -/
def writeString (p : Place) (style : Style) (us : List Nat) : List Nat :=
  if us.any isControl || !Text.isPaired us then writeDouble p us
  else
    match style with
    | .plain => writePlain p us
    | .single => writeSingle p us
    | .double => writeDouble p us

/-! ## Collections -/

/-- The number of columns by which each level is indented. -/
def indentStep : Nat := 2

/-- Lines in brackets: on one line if they fit and are not broken. -/
def bracket (isMapping : Bool) (indent : Nat) (lines : List (List Nat)) : List Nat :=
  let opening := if isMapping then "\x7b" else "["
  let closing := if isMapping then "\x7d" else "]"
  let lines := lines.dropLast.map (· ++ toUnits ",") ++ lines.getLast?.toList
  let width := total (lines.map fun line => line.length + 2) + 2
  if lines.isEmpty then toUnits (opening ++ closing)
  else if lines.any (·.contains 10) || lineWidth < width then
    let newLine := 10 :: List.replicate indent 32
    let inner := newLine ++ List.replicate indentStep 32
    toUnits opening ++ lines.flatMap (inner ++ ·) ++ newLine ++ toUnits closing
  else
    toUnits (opening ++ " ") ++ List.intercalate [32] lines ++ toUnits (" " ++ closing)

namespace Node

/-- Whether a node is a collection. -/
def isCollection : Node → Bool
  | .list _ | .mapping _ => true
  | _ => false

/-- A scalar. -/
def writeScalar (p : Place) : Node → List Nat
  | .plain text =>
    match plainValue text with
    | .string s => writeString p .plain (toUnits s)
    | .number x => toUnits (numberText text x)
    | _ => text.flatMap Text.units
  | .quoted style us => writeString p style us
  | _ => []

/-- A key without a value. -/
def loneKey (key : Node) (text : List Nat) : List Nat :=
  if text.isEmpty then toUnits "?"
  else if key.isCollection then toUnits "? " ++ text
  else text

/-- A key with its value, indented by `indent`; both are given as texts. A key that is a
collection has a mark and is on a line of its own. -/
def pairText (indent : Nat) (key value : Node) (keyText valueText : List Nat) : List Nat :=
  let newLine := 10 :: List.replicate indent 32
  let front :=
    if key.isCollection then toUnits "? " ++ keyText ++ newLine ++ toUnits ":"
    else keyText ++ toUnits ":"
  let gap :=
    if !key.isCollection && value.isCollection then
      if valueText.contains 10 then newLine ++ List.replicate indentStep 32 else [32]
    else if valueText.isEmpty || valueText.head? == some 10 then []
    else [32]
  front ++ gap ++ valueText

/-- Where the value of a key is written. -/
def valuePlace (indent : Nat) (key value : Node) (keyText : List Nat) : Place :=
  let start := if key.isCollection || value.isCollection then none else some (keyText.length + 2)
  ⟨indent + indentStep, false, start⟩

mutual

/-- A node in brackets. -/
def inline (p : Place) : Node → List Nat
  | .list items => bracket false p.indent (inlineItems (p.indent + 2 * indentStep) items)
  | .mapping entries =>
    let bare := entries.all fun e => e.2.isNone
    bracket true p.indent (inlineEntries bare (p.indent + indentStep) entries)
  | scalar => scalar.writeScalar p

/-- The items of a list. -/
def inlineItems (indent : Nat) : List Node → List (List Nat)
  | [] => []
  | item :: items => inline ⟨indent, false, none⟩ item :: inlineItems indent items

/-- The entries of a mapping, none of which has a value if `bare` holds. -/
def inlineEntries (bare : Bool) (indent : Nat) :
    List (Node × Option Node) → List (List Nat)
  | [] => []
  | (key, none) :: entries =>
    let isKey := !key.isCollection && !bare
    let keyText := inline ⟨indent + indentStep, isKey, none⟩ key
    loneKey key keyText :: inlineEntries bare indent entries
  | (key, some value) :: entries =>
    let keyText := inline ⟨indent + indentStep, !key.isCollection, none⟩ key
    let valueText := inline (valuePlace indent key value keyText) value
    pairText indent key value keyText valueText :: inlineEntries bare indent entries

end

/-- The name that a node is as a key. -/
def keyText (node : Node) : String :=
  match node.scalarValue? with
  | some .null => ""
  | some value => (value.text.toOption).getD ""
  | none => Text.ofUnits (node.inline ⟨0, false, none⟩)

mutual

/-- The value that a node is. -/
def toDatum : Node → Datum
  | .list items => .list (toData items)
  | .mapping entries => .mappingOf (toEntries entries)
  | .plain text => plainValue text
  | .quoted _ us => .ofUnits us

/-- The values that nodes are. -/
def toData : List Node → List Datum
  | [] => []
  | node :: nodes => node.toDatum :: toData nodes

/-- Keys with their values. -/
def toEntries : List (Node × Option Node) → List (String × Datum)
  | [] => []
  | (key, none) :: entries => (key.keyText, .null) :: toEntries entries
  | (key, some value) :: entries => (key.keyText, value.toDatum) :: toEntries entries

end

end Node

end Lox.Yaml
