import Lox.Table
import Lox.Decimal.Numeral
import Lox.Decimal.Reading
import Lox.Text.Unit

/-!
# Plain data

The values of configuration documents and of error contexts.

## Contents
- `Datum`: plain values, lists and mappings.
- `Datum.ofUnits`: a string given by its units.
- `Datum.mappingOf`: a mapping with its keys in order.
- `Datum.text`: a value as a text, which some values do not have.
- `inheritedText?`, `contextText`: what a context answers for a key.
-/

namespace Lox

/-- A plain value. -/
inductive Datum
  | null
  /-- A key without a value. -/
  | absent
  | bool (b : Bool)
  | number (x : Float)
  | string (s : String)
  /-- A string in which half of a pair stands alone, so that it is not a text. -/
  | units (us : List Nat)
  | list (items : List Datum)
  | mapping (entries : List (String × Datum))

instance : Inhabited Datum := ⟨.null⟩

namespace Datum

/-- Why a value has no text: it is a mapping, or a list with a mapping in it, that has an entry of
its own for the operation that makes a text. -/
inductive TextError
  | noText
deriving DecidableEq, Repr

def TextError.message : TextError → String
  | .noText => "Cannot convert object to primitive value"

mutual

/-- A value as a text. A list is the texts of its items, joined by commas. -/
def text : Datum → Except TextError String
  | .null => .ok "null"
  | .absent => .ok "undefined"
  | .bool b => .ok (if b then "true" else "false")
  | .number x => .ok (Decimal.text x)
  | .string s => .ok s
  | .units us => .ok (Text.ofUnits us)
  | .list items => (itemTexts items).map (String.intercalate ",")
  | .mapping entries =>
    if entries.any fun e => e.1 == "toString" then .error .noText else .ok "[object Object]"

/-- The texts of the items of a list; an item without a value has an empty one. -/
def itemTexts : List Datum → Except TextError (List String)
  | [] => .ok []
  | .null :: rest | .absent :: rest => (itemTexts rest).map ("" :: ·)
  | item :: rest => do
    let text ← item.text
    let texts ← itemTexts rest
    pure (text :: texts)

end

/-- The string of the given units. -/
def ofUnits (us : List Nat) : Datum :=
  if Text.isPaired us then .string (Text.ofUnits us) else .units us

/-- The largest key, exclusive, that is ordered as a number. -/
def indexLimit : Nat := Nat.pow 2 32 - 1

/-- The number that a key spells in its canonical form, if it is small enough to be an index. -/
def index? (key : String) : Option Nat :=
  let digits := key.toList
  if digits.isEmpty || !digits.all Decimal.isDigit then none
  else if digits.length > 1 && digits.head? == some '0' then none
  else
    let n := Decimal.digitsValue digits
    if n < indexLimit then some n else none

/-- Entries in the order in which a mapping lists them: keys that are indices first and ascending,
then the others as they come. -/
def orderEntries {α : Type} (entries : List (String × α)) : List (String × α) :=
  let isIndex (e : String × α) := (index? e.1).isSome
  let value (e : String × α) := (index? e.1).getD 0
  (entries.filter isIndex).mergeSort (fun a b => value a ≤ value b) ++
    entries.filter fun e => !isIndex e

/-- The mapping built from entries; of two entries for one key the later one gives the value. -/
def mappingOf (entries : List (String × Datum)) : Datum :=
  .mapping (orderEntries (Table.ofList entries).entries)

end Datum

/-- The text of a built-in operation. -/
def operationText (name : String) : String := "function " ++ name ++ "() \x7b [native code] \x7d"

/-- Keys that every context answers without holding them, with the texts of their values. -/
def inheritedText? (key : String) : Option String :=
  if key = "constructor" then some (operationText "Object")
  else if key = "__proto__" then some "[object Object]"
  else if key ∈ ["__defineGetter__", "__defineSetter__", "__lookupGetter__", "__lookupSetter__",
      "hasOwnProperty", "isPrototypeOf", "propertyIsEnumerable", "toLocaleString", "toString",
      "valueOf"] then some (operationText key)
  else none

/-- The text that a context holds for a key; nothing when there is no value. -/
def contextText (context : Table Datum) (key : String) : Except Datum.TextError String :=
  match context.get? key with
  | some .absent => .ok ""
  | some value => value.text
  | none => .ok ((inheritedText? key).getD "")

end Lox
