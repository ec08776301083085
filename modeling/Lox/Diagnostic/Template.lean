import Lox.Datum

/-!
# Message templates

A template is a text with slots: keys between braces. Rendering replaces each slot by the text
that a context holds for its key. What is put in is not searched for slots again.

## Contents
- `Template.Segment`, `Template.segments`: a template taken apart.
- `Template.fill`, `Template.render`: a template filled in.
-/

namespace Lox.Template

/-- A part of a template. -/
inductive Segment
  | char (c : Char)
  | slot (key : List Char)
  /-- A slot that is never closed; it is the last part. -/
  | openSlot
deriving DecidableEq, Repr

mutual

/-- The parts of a template, up to a slot that is not closed. -/
def segments : List Char → List Segment
  | [] => []
  | c :: cs => if c = '{' then slotFrom [] cs else .char c :: segments cs

/-- The parts from inside a slot, the key read so far being `key` reversed. -/
def slotFrom (key : List Char) : List Char → List Segment
  | [] => [.openSlot]
  | c :: cs => if c = '}' then .slot key.reverse :: segments cs else slotFrom (c :: key) cs

end

/-- The text of a part. -/
def Segment.fill {ε : Type} (value : String → Except ε String) : Segment → Except ε (List Char)
  | .char c => .ok [c]
  | .slot key => (value (String.ofList key)).map (·.toList)
  | .openSlot => .ok []

/-- A template whose slots are filled in by `value`, from the first one to the last. A template with
an open slot stands for itself, once the slots in front of that one are filled in. -/
def fill {ε : Type} (template : String) (value : String → Except ε String) : Except ε String :=
  let parts := segments template.toList
  (parts.mapM (Segment.fill value)).map fun texts =>
    if .openSlot ∈ parts then template else String.ofList texts.flatten

/-- A template filled in from a context. -/
def render (template : String) (context : Table Datum) : Except Datum.TextError String :=
  fill template (contextText context)

end Lox.Template
