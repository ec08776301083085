import Lox.Yaml.Tree

/-!
# Nodes of a document

A node is what a tree means: a scalar, a list, or a mapping. A tree means something only if its
lexemes stand where they may stand: comments behind blanks, tabs not in front of blocks, marks and
commas once each, keys on one line and different from each other.

## Contents
- `Node`: scalars and collections.
- `Gap`: what stands in front of a node.
- `Part`: a node with what its surroundings ask of it.
- `MappingSoFar`, `SequenceSoFar`, `BracketsSoFar`: collections, entry by entry.
- `Tree.part?`, `Node.ofTree?`: what a tree means.
-/

namespace Lox.Yaml

/-- What a tree means. -/
inductive Node
  /-- A plain scalar with its line ends folded. -/
  | plain (text : List Char)
  /-- A scalar in quotes, with its units. -/
  | quoted (style : Style) (units : List Nat)
  | list (items : List Node)
  /-- The value of an entry may be missing together with its colon. -/
  | mapping (entries : List (Node × Option Node))

namespace Node

/-- An empty scalar. -/
def empty : Node := .plain []

/-- The value of a scalar. -/
def scalarValue? : Node → Option Datum
  | .plain text => some (plainValue text)
  | .quoted _ units => some (.ofUnits units)
  | _ => none

/-- Whether two values of scalars are the same. -/
def sameValue : Datum → Datum → Bool
  | .null, .null => true
  | .bool a, .bool b => a == b
  | .number x, .number y => x == y
  | .string s, .string t => s == t
  | .units us, .units vs => us == vs
  | _, _ => false

/-- Whether a node cannot be a key beside keys of the given values: it is a scalar with one of them.
Collections are never the same key. -/
def isTaken (taken : List Datum) (node : Node) : Bool :=
  node.scalarValue?.any fun value => taken.any (sameValue value)

end Node

/-! ## Gaps -/

/-- What kind of node comes next. -/
inductive Form
  | scalar
  | brackets
  | mapping
  | sequence
deriving DecidableEq, Repr

namespace Form

/-- Whether a node is a block collection. -/
def isBlock (form : Form) : Bool := form == .mapping || form == .sequence

end Form

/-- What stands in front of a node. -/
structure Gap where
  comma : Bool
  mark : Option Lexeme
  /-- Whether a line ends in it. -/
  crossed : Bool
  /-- Where it ends. -/
  finish : Nat

/-- What a gap may hold. -/
structure Gap.Rule where
  inBrackets : Bool
  /-- The mark that may stand in it. -/
  mark : Lexeme.Kind
  /-- The node behind it. -/
  next : Option Form
  /-- How far the collection around it is indented. -/
  indent : Nat
  /-- Whether it counts as the beginning of a line from its beginning on. -/
  fresh : Bool

/-- A gap of which a part is read. -/
structure Gap.Reading where
  gap : Gap
  /-- Whether it has come to the beginning of a line. -/
  fresh : Bool
  /-- Whether a comment may follow. -/
  spaced : Bool
  /-- The latest lexeme, if it holds a tab that may be an indentation. -/
  tab : Option Lexeme

namespace Gap

/-- Whether tabs matter. In brackets, and in front of a collection in brackets that is the whole
document, they do not. -/
def Rule.tabs (r : Rule) : Bool :=
  !r.inBrackets && !(r.mark == .documentMark && r.next == some .brackets)

/-- Reads a lexeme of a gap. -/
def Reading.step? (r : Rule) (s : Reading) (l : Lexeme) : Option Reading :=
  if s.tab.isSome && s.fresh && l.kind != .comment && l.kind != .lineEnd then none
  else
    let gap := { s.gap with finish := l.finish }
    if l.kind = .space then
      let tab := if r.tabs && l.text.contains '\t' then some l else none
      some ⟨gap, s.fresh, true, tab⟩
    else if l.kind = .comment then
      if s.spaced then some ⟨gap, false, true, none⟩ else none
    else if l.kind = .lineEnd then some ⟨{ gap with crossed := true }, true, true, none⟩
    else if l.kind = r.mark then
      if gap.mark.isSome then none
      else some ⟨{ gap with mark := some l }, l.kind == .item || l.kind == .key, false, none⟩
    else if l.kind = .comma ∧ r.inBrackets then
      if gap.comma then none else some ⟨{ gap with comma := true }, false, false, none⟩
    else none

/-- The gap that lexemes make up, the latest of which comes first, behind the place `from`. -/
def read? (r : Rule) (start : Nat) (ls : List Lexeme) : Option Gap := do
  let s ← ls.reverse.foldlM (Reading.step? r)
    ⟨⟨false, none, false, start⟩, r.fresh, r.fresh, none⟩
  let isIndent (tab : Lexeme) :=
    (s.fresh && tab.indent ≤ r.indent) || r.next.any (·.isBlock)
  if s.tab.any isIndent then none else some s.gap

end Gap

/-- Whether lexemes may stand behind a node, the latest of which comes first: blanks, and comments
that have a blank in front of them. -/
def isTrailing (spaced : Bool) (ls : List Lexeme) : Bool :=
  match ls with
  | [] => true
  | l :: ls =>
    isTrailing spaced ls &&
      (l.kind == .space || l.kind == .lineEnd ||
        (l.kind == .comment && (spaced || ls.any fun l => l.kind != .comment)))

/-- Whether a line ends among lexemes. -/
def hasLineEnd (ls : List Lexeme) : Bool := ls.any (·.kind == .lineEnd)

/-- Whether there is a comment among lexemes. -/
def hasComment (ls : List Lexeme) : Bool := ls.any (·.kind == .comment)

/-- Where an empty node stands: behind the latest lexeme that is not blank and the spaces behind
that, or at the end of the gap if that holds a comment. -/
def emptyFinish (gap : Gap) (ls : List Lexeme) : Nat :=
  let spaces := (ls.takeWhile (·.isBlank)).reverse.takeWhile (·.kind == .space)
  let solid := (ls.dropWhile (·.isBlank)).head?
  if hasComment ls then gap.finish else ((spaces.getLast?.or solid).map (·.finish)).getD gap.finish

/-! ## Parts -/

/-- A node with what its surroundings ask of it. -/
structure Part where
  node : Node
  form : Form
  indent : Nat
  /-- Where it ends, with what stands behind it. -/
  finish : Nat
  /-- Whether it goes over several lines, so that it cannot be a key without a mark. -/
  manyLines : Bool
  /-- Whether a blank stands behind it. -/
  spaced : Bool

/-- The largest number of units between the beginning of a key without a mark and its colon. -/
def maxKeyLength : Nat := 1024

/-- The node of a scalar, when it is written correctly. -/
def scalarNode? (style : Style) (text : List Char) : Option Node :=
  match style with
  | .plain => some (.plain (folded text))
  | .single => (singleQuoted? text).map (.quoted .single)
  | .double => (doubleQuoted? text).map (.quoted .double)

/-- A scalar with what stands behind it. -/
def scalarPart? (l : Lexeme) (after : List Lexeme) : Option Part :=
  match l.kind with
  | .scalar style =>
    if isTrailing false after then
      (scalarNode? style l.text).map fun node =>
        ⟨node, .scalar, l.indent, ((after.head?).map (·.finish)).getD l.finish,
          l.text.contains '\n' || hasLineEnd after, !after.isEmpty⟩
    else none
  | _ => none

/-! ## Block collections -/

/-- The entries of a block mapping that are read, the latest one first. -/
structure MappingSoFar where
  entries : List (Node × Option Node)
  /-- The values of the scalars that are keys. -/
  taken : List Datum
  /-- Where the latest of them ends. -/
  finish : Nat
  /-- The end of the blanks that belong to no entry. -/
  loose : Option Nat

namespace MappingSoFar

/-- Adds an entry that ends at `finish`. -/
def add (m : MappingSoFar) (key : Node) (value : Option Node) (finish : Nat) : MappingSoFar :=
  { m with
    entries := (key, value) :: m.entries
    taken := key.scalarValue?.toList ++ m.taken
    finish := finish }

/-- Reads a value behind its colon. A mapping cannot begin on the line of a key without a mark, and
such a key is not long. -/
def value? (m : MappingSoFar) (e : Entry Part) (key : Node) (keyGap valueGap : Gap)
    (colon : Lexeme) : Option MappingSoFar :=
  let compact := e.value.any fun v => v.form == .mapping && !valueGap.crossed
  let long := keyGap.finish + maxKeyLength < colon.offset
  if keyGap.mark.isNone && (compact || long) then none
  else
    let value := (e.value.map (·.node)).getD .empty
    let finish := (e.value.map (·.finish)).getD (emptyFinish valueGap (e.between.getD []))
    some (m.add key (some value) finish)

/-- Reads an entry of a mapping that is indented by `indent`. An entry with neither key nor colon
holds only blanks. -/
def entry? (indent : Nat) (m : MappingSoFar) (e : Entry Part) : Option MappingSoFar := do
  let keyForm := e.key.map (·.form)
  let keyGap ← Gap.read? ⟨false, .key, keyForm, indent, true⟩ m.finish e.before
  let implicit := keyGap.mark.isNone
  let fits (key : Part) := key.form != .sequence && key.indent == indent
  if implicit && !e.key.all fits || keyGap.mark.any (·.indent != indent) then none
  else if implicit && e.between.isNone then some { m with loose := some keyGap.finish }
  else if implicit && e.key.any (·.manyLines) then none
  else
    let key := (e.key.map (·.node)).getD .empty
    if key.isTaken m.taken then none
    else
      let start := (e.key.map (·.finish)).getD keyGap.finish
      let valueForm := e.value.map (·.form)
      let valueGap ←
        Gap.read? ⟨false, .value, valueForm, indent, e.key.isNone⟩ start (e.between.getD [])
      match valueGap.mark with
      | some colon => m.value? e key keyGap valueGap colon
      | none =>
        if implicit then none else some (m.add key none valueGap.finish)

end MappingSoFar

/-- The mapping of the given entries, the latest of which comes first. Blanks that belong to no
entry can stand only at its end. -/
def mappingPart? (indent offset : Nat) (entries : List (Entry Part)) : Option Part := do
  let m ← entries.reverse.foldlM (MappingSoFar.entry? indent) ⟨[], [], offset, none⟩
  if m.loose.any (· < m.finish) then none
  else
    some ⟨.mapping m.entries.reverse, .mapping, indent, m.loose.getD m.finish, true, false⟩

/-- The items of a block sequence that are read, the latest one first. -/
structure SequenceSoFar where
  items : List Node
  finish : Nat
  loose : Option Nat

namespace SequenceSoFar

/-- Reads an item of a sequence that is indented by `indent`. -/
def entry? (indent : Nat) (s : SequenceSoFar) (e : Entry Part) : Option SequenceSoFar := do
  let form := e.value.map (·.form)
  let gap ← Gap.read? ⟨false, .item, form, indent, true⟩ s.finish e.before
  match gap.mark, e.value with
  | none, some _ => none
  | none, none => some { s with loose := some gap.finish }
  | some _, some item => some { s with items := item.node :: s.items, finish := item.finish }
  | some _, none =>
    some { s with items := .empty :: s.items, finish := emptyFinish gap e.before }

end SequenceSoFar

/-- The sequence of the given entries, the latest of which comes first. -/
def sequencePart? (indent offset : Nat) (entries : List (Entry Part)) : Option Part := do
  let s ← entries.reverse.foldlM (SequenceSoFar.entry? indent) ⟨[], offset, none⟩
  some ⟨.list s.items.reverse, .sequence, indent, s.loose.getD s.finish, true, false⟩

/-! ## Collections in brackets -/

namespace Entry

/-- Whether the key of an entry in square brackets is an item: there is neither a mark nor a
colon. -/
def isItem (isMapping : Bool) (e : Entry Part) : Bool :=
  !isMapping && e.between.isSome && e.value.isNone && !e.hasColon &&
    !e.before.any (·.kind == .key)

/-- An entry in which an item is the value. -/
def settled? (isMapping : Bool) (e : Entry Part) : Option (Entry Part) :=
  if e.isItem isMapping then
    let after := e.between.getD []
    let item := e.key.map fun key =>
      { key with manyLines := key.manyLines || (key.form == .scalar && Yaml.hasLineEnd after) }
    if e.key.all fun key => isTrailing key.spaced after then
      some { e with key := none, between := none, value := item }
    else none
  else some e

/-- Whether an entry goes over several lines. -/
def manyLines (e : Entry Part) : Bool :=
  Yaml.hasLineEnd e.before || e.hasLineEnd || e.key.any (·.manyLines) || e.value.any (·.manyLines)

/-- Whether the line ends between the key and the colon. -/
def colonOnNextLine (e : Entry Part) : Bool :=
  Yaml.hasLineEnd ((e.between.getD []).reverse.takeWhile fun l => l.kind != .value)

end Entry

/-- The entries in brackets that are read, the latest one first. -/
structure BracketsSoFar where
  /-- Each is a key with a value; in a sequence, an item is a key without one. -/
  entries : List (Node × Option Node)
  /-- The values of the scalars that are keys of a mapping. -/
  taken : List Datum
  isFirst : Bool

namespace BracketsSoFar

/-- Reads a pair behind the gap in front of it. The key of a pair in a sequence is on one line
with its colon and is not long, unless it has a mark; the keys of a mapping differ. -/
def pair? (isMapping : Bool) (b : BracketsSoFar) (e : Entry Part) (keyGap : Gap) :
    Option (Node × Option Node) := do
  let key := (e.key.map (·.node)).getD .empty
  let value := e.value.map (·.node)
  let start := (e.key.map (·.finish)).getD keyGap.finish
  let valueForm := e.value.map (·.form)
  let gap ← Gap.read? ⟨true, .value, valueForm, 0, false⟩ start (e.between.getD [])
  let isLong (colon : Lexeme) := keyGap.finish + maxKeyLength < colon.offset
  if key.isTaken b.taken then none
  else
    match gap.mark with
    | none => if value.isSome then none else some (key, none)
    | some colon =>
      if !isMapping && keyGap.mark.isNone && (e.colonOnNextLine || isLong colon) then none
      else some (key, some (value.getD .empty))

/-- Reads an entry. A comma stands between each two of them, and may stand behind the last one.
Without anything in front of it the first one begins at `start`. -/
def entry? (isMapping : Bool) (start : Nat) (b : BracketsSoFar) (e : Entry Part) (isLast : Bool) :
    Option BracketsSoFar := do
  let next := e.key.map (·.form)
  let gap ← Gap.read? ⟨true, .key, next, 0, false⟩ start e.before
  if gap.comma == b.isFirst then
    if b.isFirst || !isLast || e.between.isSome || e.value.isSome || gap.mark.isSome then none
    else some b
  else if gap.mark.isNone && e.between.isNone && e.value.isNone then
    if isLast then some b else none
  else if gap.mark.isNone && !isMapping && e.key.any (·.manyLines) then none
  else if !isMapping && e.between.isNone && gap.mark.isNone then
    let item := (e.value.map (·.node)).getD .empty
    some ⟨(item, none) :: b.entries, [], false⟩
  else
    let (key, value) ← b.pair? isMapping e gap
    if isMapping then
      some ⟨(key, value) :: b.entries, key.scalarValue?.toList ++ b.taken, false⟩
    else some ⟨(.mapping [(key, value)], none) :: b.entries, [], false⟩

/-- Reads entries up to the last one. -/
def entries? (isMapping : Bool) (start : Nat) (b : BracketsSoFar) :
    List (Entry Part) → Option BracketsSoFar
  | [] => some b
  | e :: es =>
    (b.entry? isMapping start e es.isEmpty).bind fun b => b.entries? isMapping start es

end BracketsSoFar

/-- The collection in brackets with the given entries, the latest of which comes first. -/
def bracketsPart? (opening : Lexeme) (entries : List (Entry Part)) (closing : Lexeme)
    (after : List Lexeme) : Option Part := do
  let isMapping := opening.kind == .opening true
  let entries ← entries.reverse.mapM (·.settled? isMapping)
  let b ← BracketsSoFar.entries? isMapping opening.finish ⟨[], [], true⟩ entries
  let node : Node :=
    if isMapping then .mapping b.entries.reverse else .list (b.entries.reverse.map (·.1))
  if isTrailing false after then
    some ⟨node, .brackets, opening.indent, ((after.head?).map (·.finish)).getD closing.finish,
      entries.any (·.manyLines), !after.isEmpty⟩
  else none

/-! ## Whole trees -/

/-- A node of a form that nothing else is asked of. -/
def Form.bare (form : Form) : Part := ⟨.empty, form, 0, 0, false, false⟩

/-- The form of the node that a tree is. -/
def Tree.form : Tree → Form
  | .document _ _ | .scalar _ _ => .scalar
  | .brackets _ _ _ _ => .brackets
  | .mapping _ _ _ => .mapping
  | .sequence _ _ _ => .sequence

mutual

/-- What a tree means, with what its surroundings ask of it. -/
def Tree.part? : Tree → Option Part
  | .document _ _ => none
  | .scalar l after => scalarPart? l after
  | .brackets opening entries (some closing) after =>
    (entryParts? entries).bind fun entries => bracketsPart? opening entries closing after
  | .brackets _ _ none _ => none
  | .mapping indent offset entries => (entryParts? entries).bind (mappingPart? indent offset)
  | .sequence indent offset entries => (entryParts? entries).bind (sequencePart? indent offset)

/-- What the trees in entries mean. A value that no colon stands in front of means nothing. -/
def entryParts? : List (Entry Tree) → Option (List (Entry Part))
  | [] => some []
  | ⟨before, explicit, key, between, value⟩ :: es => do
    let key ← optionPart? key
    let isLost := between.any fun ls => ls.all (·.kind != .value)
    let value ← if isLost then some (value.map (·.form.bare)) else optionPart? value
    let es ← entryParts? es
    some (⟨before, explicit, key, between, value⟩ :: es)

/-- What a tree means that may be missing. -/
def optionPart? : Option Tree → Option (Option Part)
  | none => some none
  | some t => t.part?.map some

end

/-- What a document means. A block collection cannot begin on the line of the mark in front of it.
-/
def Node.ofTree? : Tree → Option Node
  | .document before root => do
    let root ← optionPart? root
    let form := root.map (·.form)
    let gap ← Gap.read? ⟨false, .documentMark, form, 0, true⟩ 0 before
    if gap.mark.isSome && !gap.crossed && form.any (·.isBlock) then none
    else some ((root.map (·.node)).getD .empty)
  | _ => none

end Lox.Yaml
