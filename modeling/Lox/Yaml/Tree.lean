import Lox.Yaml.Lexeme

/-!
# Trees of a document

A tree holds all lexemes of a document in the places where they belong. It grows from one lexeme
to the next: the nodes that are still open form a stack, and a lexeme is taken in by the innermost
one or closes it. A lexeme that no open node can take in makes the text no document.

Lists of lexemes and of entries begin with the latest one, because trees grow at their end.

## Contents
- `Entry`, `Tree`: nodes with all their lexemes.
- `Growth`: a tree that grows; `Growth.attach?` closes a node.
- `Growth.verdict`: what a lexeme does to the innermost node.
- `Growth.feed?`, `tree?`: one lexeme, and all lexemes.
-/

namespace Lox.Yaml

/-! ## Trees -/

/-- An entry of a collection: a key with its value, or an item, which is a value without a key. -/
structure Entry (α : Type) where
  /-- What stands in front of the key or the item. -/
  before : List Lexeme
  /-- Whether a question mark stands in front of the key of a block mapping. -/
  explicit : Bool
  key : Option α
  /-- What stands behind the key, with the colon; `none` while neither of them is there. -/
  between : Option (List Lexeme)
  value : Option α

/-- A node with all its lexemes. -/
inductive Tree
  | document (before : List Lexeme) (root : Option Tree)
  /-- A scalar and what stands behind it on its line. -/
  | scalar (lexeme : Lexeme) (after : List Lexeme)
  /-- A collection in brackets, the closing one of which may be missing. -/
  | brackets (opening : Lexeme) (entries : List (Entry Tree)) (closing : Option Lexeme)
    (after : List Lexeme)
  | mapping (indent offset : Nat) (entries : List (Entry Tree))
  | sequence (indent offset : Nat) (entries : List (Entry Tree))

namespace Entry

variable {α : Type}

/-- An entry of which only the beginning is there. -/
def leading (before : List Lexeme) : Entry α := ⟨before, false, none, none, none⟩

/-- An entry that has a key. -/
def keyed (before : List Lexeme) (key : α) : Entry α := ⟨before, false, some key, some [], none⟩

/-- An entry that has a colon and no key. -/
def valued (before : List Lexeme) (colon : Lexeme) : Entry α :=
  ⟨before, false, none, some [colon], none⟩

/-- Puts a lexeme in front of the key or the item. -/
def pushBefore (e : Entry α) (l : Lexeme) : Entry α := { e with before := l :: e.before }

/-- Puts a lexeme behind the key. -/
def pushBetween (e : Entry α) (l : Lexeme) : Entry α :=
  { e with between := some (l :: e.between.getD []) }

/-- Puts a blank lexeme where the entry without a value goes on. -/
def pushBlank (e : Entry α) (l : Lexeme) : Entry α :=
  if e.between.isSome then e.pushBetween l else e.pushBefore l

/-- Whether a colon stands behind the key. -/
def hasColon (e : Entry α) : Bool := (e.between.getD []).any (·.kind == .value)

/-- Whether the line ends behind the key. -/
def hasLineEnd (e : Entry α) : Bool := (e.between.getD []).any (·.kind == .lineEnd)

/-- Whether an entry holds only blank lexemes that may belong to something further out: comments
that are not indented less than the collection stay in it. -/
def isLoose (indent : Nat) (e : Entry α) : Bool :=
  e.between.isNone && e.value.isNone && !e.before.isEmpty && e.before.all (·.isBlank) &&
    (indent == 0 || e.before.all fun l => l.kind != .comment || l.indent < indent)

end Entry

namespace Tree

/-- A node without the loose entry at its end, and that entry. -/
def detach : Tree → Tree × List (Entry Tree)
  | .mapping indent offset (e :: es) =>
    if e.isLoose indent then (.mapping indent offset es, [.leading e.before])
    else (.mapping indent offset (e :: es), [])
  | .sequence indent offset (e :: es) =>
    if e.isLoose indent then (.sequence indent offset es, [.leading e.before])
    else (.sequence indent offset (e :: es), [])
  | t => (t, [])

/-- What stands behind a node on its line; block collections end with their lines. -/
def after? : Tree → Option (List Lexeme)
  | .scalar _ after | .brackets _ _ _ after => some after
  | _ => none

/-- Puts lexemes behind a node. -/
def append (ls : List Lexeme) : Tree → Tree
  | .scalar lexeme after => .scalar lexeme (ls ++ after)
  | .brackets opening entries closing after => .brackets opening entries closing (ls ++ after)
  | t => t

/-- Whether a node is a scalar or stands in brackets. -/
def isFlow : Tree → Bool
  | .scalar _ _ | .brackets _ _ _ _ => true
  | _ => false

/-- The node that a lexeme begins. -/
def beginning? (l : Lexeme) : Option Tree :=
  match l.kind with
  | .scalar _ => some (.scalar l [])
  | .opening _ => some (.brackets l [] none [])
  | .item => some (.sequence l.indent l.offset [.leading [l]])
  | .key => some (.mapping l.indent l.offset [⟨[l], true, none, none, none⟩])
  | .value => some (.mapping l.indent l.offset [.valued [] l])
  | _ => none

end Tree

/-! ## Growth -/

/-- A tree that grows. -/
structure Growth where
  /-- The nodes that are open, the innermost one first; the outermost one is the document. -/
  nodes : List Tree
  /-- Whether a key has begun on the line, so that no other entry can begin there. -/
  onKeyLine : Bool

/-- What a lexeme does to the innermost node. -/
inductive Verdict
  /-- It is taken in. -/
  | grown (g : Growth)
  /-- It closes the node, and is for the one around it. -/
  | closing
  /-- It cannot stand here. -/
  | refused

/-- The verdict on a lexeme that leads to `g?`. -/
def Verdict.ofOption : Option Growth → Verdict
  | some g => .grown g
  | none => .refused

namespace Growth

/-- Gives a node that is closed to the one around it: as the value of its last entry, as a key, or
as an entry of its own. -/
def attach? (g : Growth) (t : Tree) : Option Growth :=
  let (value, loose) := t.detach
  match g.nodes with
  | .document before _ :: nodes => some ⟨.document before (some value) :: nodes, g.onKeyLine⟩
  | .mapping indent offset (e :: es) :: nodes =>
    if e.value.isSome then some ⟨.mapping indent offset (.keyed [] t :: e :: es) :: nodes, true⟩
    else if e.between.isSome then
      let es := loose ++ { e with value := some value } :: es
      some ⟨.mapping indent offset es :: nodes, g.onKeyLine⟩
    else
      let e' := { e with key := some t, between := some [] }
      some ⟨.mapping indent offset (e' :: es) :: nodes, !e.explicit⟩
  | .sequence indent offset (e :: es) :: nodes =>
    let es :=
      if e.value.isSome then { Entry.leading [] with value := some value } :: e :: es
      else { e with value := some value } :: es
    some ⟨.sequence indent offset (loose ++ es) :: nodes, g.onKeyLine⟩
  | .brackets opening entries none after :: nodes =>
    let entries :=
      match entries with
      | [] => [.keyed [] t]
      | e :: es =>
        if e.value.isSome then .keyed [] t :: e :: es
        else if e.between.isSome then { e with value := some t } :: es
        else { e with key := some t, between := some [] } :: es
    some ⟨.brackets opening entries none after :: nodes, g.onKeyLine⟩
  | _ => none

theorem length_attach? {g g' : Growth} {t : Tree} (h : g.attach? t = some g') :
    g'.nodes.length = g.nodes.length := by
  grind [attach?]

/-- Closes the innermost node. -/
def close? (g : Growth) : Option Growth :=
  match g.nodes with
  | [] => none
  | t :: nodes => attach? { g with nodes := nodes } t

theorem length_close?_lt {g g' : Growth} (h : g.close? = some g') :
    g'.nodes.length < g.nodes.length := by
  unfold close? at h
  split at h
  · contradiction
  · rename_i t nodes hg
    have := length_attach? h
    simp_all

/-- Opens the node that a lexeme begins. -/
def opened (g : Growth) (l : Lexeme) : Verdict :=
  match Tree.beginning? l with
  | some t => .grown ⟨t :: g.nodes, g.onKeyLine || l.kind == .key || l.kind == .value⟩
  | none => .refused

/-! ## Verdicts -/

/-- What a lexeme does to the document. Only blank lexemes stand around its root. -/
def inDocument (g : Growth) (before : List Lexeme) (root : Option Tree) (outer : List Tree)
    (l : Lexeme) : Verdict :=
  match root with
  | some _ => if l.isBlank then .grown g else .refused
  | none =>
    if l.isBlank || l.kind == .documentMark then
      .grown { g with nodes := .document (l :: before) none :: outer }
    else g.opened l

/-- What a lexeme does to a node that is complete, `t` being the node with the lexeme behind it. -/
def behind (g : Growth) (t : Tree) (outer : List Tree) (l : Lexeme) : Verdict :=
  match l.kind with
  | .lineEnd => .ofOption (attach? ⟨outer, false⟩ t)
  | .space | .comment => .grown { g with nodes := t :: outer }
  | .value | .comma | .closing _ | .documentMark => .closing
  | _ => .refused

/-- Whether brackets are open around a node. -/
def inOpenBrackets : List Tree → Bool
  | .brackets _ _ _ _ :: _ => true
  | _ => false

/-- Makes a node, behind which a colon stands, the first key of a block mapping. There are no block
mappings in brackets. -/
def beginMapping (key : Tree) (indent offset : Nat) (between : List Lexeme) (outer : List Tree) :
    Verdict :=
  if inOpenBrackets outer then .refused
  else .grown ⟨.mapping indent offset [⟨[], false, some key, some between, none⟩] :: outer, true⟩

/-- What a lexeme does to a scalar. -/
def inScalar (g : Growth) (scalar : Lexeme) (after : List Lexeme) (outer : List Tree) (l : Lexeme) :
    Verdict :=
  if l.kind = .value then
    beginMapping (.scalar scalar []) scalar.indent scalar.offset (l :: after) outer
  else g.behind (.scalar scalar (l :: after)) outer l

/-- What a lexeme does to a collection in brackets that is open. -/
def inBrackets (g : Growth) (opening : Lexeme) (entries : List (Entry Tree)) (outer : List Tree)
    (l : Lexeme) : Verdict :=
  let grown (entries : List (Entry Tree)) : Verdict :=
    .grown { g with nodes := .brackets opening entries none [] :: outer }
  match l.kind, entries with
  | .comma, e :: es | .key, e :: es =>
    if e.between.isSome then grown (.leading [l] :: e :: es) else grown (e.pushBefore l :: es)
  | .comma, [] | .key, [] => grown [.leading [l]]
  | .value, e :: es =>
    if e.value.isSome then grown (.valued [] l :: e :: es) else grown (e.pushBetween l :: es)
  | .value, [] => grown [.valued [] l]
  | .space, e :: es | .comment, e :: es | .lineEnd, e :: es =>
    if e.value.isSome then grown (.leading [l] :: e :: es) else grown (e.pushBlank l :: es)
  | .space, [] | .comment, [] | .lineEnd, [] => grown [.leading [l]]
  | .scalar _, e :: es =>
    if e.value.isSome then grown (.keyed [] (.scalar l []) :: e :: es)
    else if e.between.isSome then g.opened l
    else grown ({ e with key := some (.scalar l []), between := some [] } :: es)
  | .scalar _, [] => grown [.keyed [] (.scalar l [])]
  | .opening _, _ => g.opened l
  | .closing isMapping, _ =>
    if opening.kind = .opening isMapping then
      .grown { g with nodes := .brackets opening entries (some l) [] :: outer }
    else .refused
  | .item, _ | .documentMark, _ => .refused

/-- Whether a collection in brackets that stands in `column` is a key of the mapping around it,
because a colon or the end of the line follows it. -/
def isBracketedKey (column : Nat) (outer : List Tree) (l : Lexeme) : Bool :=
  match outer with
  | .mapping indent _ (e :: _) :: _ =>
    (l.kind == .value && indent == column) || (l.kind == .lineEnd && e.between.isNone)
  | _ => false

/-- What a lexeme does to a collection in brackets that is closed. In a mapping in its own column it
is a key; elsewhere a colon makes it the first key of a mapping. -/
def afterBrackets (g : Growth) (opening : Lexeme) (entries : List (Entry Tree)) (closing : Lexeme)
    (after : List Lexeme) (outer : List Tree) (l : Lexeme) : Verdict :=
  if isBracketedKey opening.indent outer l then .closing
  else if l.kind = .value ∧ !inOpenBrackets outer then
    beginMapping (.brackets opening entries (some closing) []) opening.indent opening.offset
      (l :: after) outer
  else g.behind (.brackets opening entries (some closing) (l :: after)) outer l

/-- Whether a lexeme is a comment that belongs to the entry before the one that begins with it: it
is indented more than the collection, and only blanks stand in front of it. -/
def isIndentedComment (indent : Nat) (before : List Lexeme) (l : Lexeme) : Bool :=
  l.kind == .comment && indent < l.indent &&
    before.all fun l => l.kind == .lineEnd || l.kind == .space

/-- The entries of a block collection with one more blank lexeme. A comment may go to the entry
before the last one. -/
def withBlank (indent : Nat) (l : Lexeme) : List (Entry Tree) → List (Entry Tree)
  | [] => []
  | e :: es =>
    if let some value := e.value then
      let isAfterComment := (value.after?.bind (·.head?)).any (·.kind == .comment)
      if l.kind = .lineEnd ∧ isAfterComment then { e with value := some (value.append [l]) } :: es
      else .leading [l] :: e :: es
    else if e.between.isSome then e.pushBetween l :: es
    else
      match es with
      | { value := some value, before, explicit, key, between } :: rest =>
        if isIndentedComment indent e.before l && value.after?.isSome then
          ⟨before, explicit, key, between, some (value.append (l :: e.before))⟩ :: rest
        else e.pushBefore l :: es
      | _ => e.pushBefore l :: es

/-- The positions of the line ends among `ls`, from `index` on, after which no comment of the
mapping and no mark stands. -/
def lineEndsFrom (indent index : Nat) (found : List Nat) : List Lexeme → List Nat
  | [] => found.reverse
  | l :: ls =>
    match l.kind with
    | .lineEnd => lineEndsFrom indent (index + 1) (index :: found) ls
    | .space => lineEndsFrom indent (index + 1) found ls
    | .comment =>
      lineEndsFrom indent (index + 1) (if indent < l.indent then [] else found) ls
    | _ => lineEndsFrom indent (index + 1) [] ls

/-- An entry whose value is missing, and what stands behind its second line end: that belongs to the
entry after it. -/
def splitBetween (indent : Nat) (e : Entry Tree) : Entry Tree × List Lexeme :=
  let ls := (e.between.getD []).reverse
  match lineEndsFrom indent 0 [] ls with
  | _ :: second :: _ =>
    ({ e with between := some (ls.take second).reverse }, (ls.drop second).reverse)
  | _ => (e, [])

/-- What a colon does to an entry with an explicit key. `before` is what stands in front of the next
entry if there is one. -/
def explicitValue (indent offset : Nat) (before : List Lexeme) (e : Entry Tree)
    (es : List (Entry Tree)) (outer : List Tree) (l : Lexeme) : Verdict :=
  let grown (entries : List (Entry Tree)) : Verdict :=
    .grown ⟨.mapping indent offset entries :: outer, true⟩
  let nested (e : Entry Tree) (inner : Entry Tree) : Verdict :=
    .grown ⟨.mapping l.indent l.offset [inner] :: .mapping indent offset (e :: es) :: outer, true⟩
  match e.between with
  | none =>
    if e.before.any (·.kind == .lineEnd) then grown ({ e with between := some [l] } :: es)
    else nested e (.valued [] l)
  | some between =>
    if e.value.isSome then grown (.valued [] l :: e :: es)
    else if e.hasColon then nested e (.valued before l)
    else if e.key.any (·.isFlow) && !e.hasLineEnd then
      nested { e with key := none, between := none } ⟨[], false, e.key, some (l :: between), none⟩
    else grown ({ e with between := some (l :: before ++ between) } :: es)

/-- What a lexeme that is not blank does to a block mapping whose column it has reached. -/
def inMappingColumn (g : Growth) (indent offset : Nat) (e : Entry Tree) (es : List (Entry Tree))
    (outer : List Tree) (l : Lexeme) : Verdict :=
  let inColumn := !g.onKeyLine && l.indent == indent
  let isNext := inColumn && (e.between.isSome || e.explicit) && l.kind != .item
  let (e, before) :=
    if isNext && e.between.isSome && e.value.isNone then splitBetween indent e else (e, [])
  let grown (entries : List (Entry Tree)) : Verdict :=
    .grown ⟨.mapping indent offset entries :: outer, true⟩
  let kept := { g with nodes := .mapping indent offset (e :: es) :: outer }
  match l.kind with
  | .key =>
    if e.between.isNone && !e.explicit then grown ({ e.pushBefore l with explicit := true } :: es)
    else if isNext || e.value.isSome then grown (⟨l :: before, true, none, none, none⟩ :: e :: es)
    else kept.opened l
  | .value =>
    if e.explicit then explicitValue indent offset before e es outer l
    else if e.between.isNone then grown ({ e with between := some [l] } :: es)
    else if e.value.isSome || isNext then grown (.valued before l :: e :: es)
    else if e.hasColon then kept.opened l
    else grown (e.pushBetween l :: es)
  | .scalar _ =>
    if isNext || e.value.isSome then grown (.keyed before (.scalar l []) :: e :: es)
    else if e.between.isSome then kept.opened l
    else grown ({ e with key := some (.scalar l []), between := some [] } :: es)
  | .item =>
    if !e.explicit && e.between.isSome && !e.hasLineEnd then .refused else kept.opened l
  | .opening _ =>
    if inColumn then
      { kept with nodes := .mapping indent offset (.leading before :: e :: es) :: outer }.opened l
    else kept.opened l
  | _ => .refused

/-- What a lexeme does to a block mapping. -/
def inMapping (g : Growth) (indent offset : Nat) (entries : List (Entry Tree)) (outer : List Tree)
    (l : Lexeme) : Verdict :=
  if l.isBlank then
    .grown ⟨.mapping indent offset (withBlank indent l entries) :: outer,
      g.onKeyLine && l.kind != .lineEnd⟩
  else
    match entries with
    | [] => .refused
    | e :: es =>
      if indent ≤ l.indent then g.inMappingColumn indent offset e es outer l else .closing

/-- What a lexeme does to a block sequence. -/
def inSequence (g : Growth) (indent offset : Nat) (entries : List (Entry Tree)) (outer : List Tree)
    (l : Lexeme) : Verdict :=
  let grown (entries : List (Entry Tree)) : Verdict :=
    .grown { g with nodes := .sequence indent offset entries :: outer }
  match entries with
  | [] => .refused
  | e :: es =>
    if l.isBlank then grown (withBlank indent l entries)
    else if l.kind = .item ∧ l.indent = indent then
      if e.value.isSome || e.before.any (·.kind == .item) then grown (.leading [l] :: e :: es)
      else grown (e.pushBefore l :: es)
    else if indent < l.indent then g.opened l
    else .closing

/-- What a lexeme does to the innermost node. -/
def verdict (g : Growth) (l : Lexeme) : Verdict :=
  match g.nodes with
  | [] => .refused
  | .document before root :: outer => g.inDocument before root outer l
  | .scalar scalar after :: outer => g.inScalar scalar after outer l
  | .brackets opening entries none _ :: outer => g.inBrackets opening entries outer l
  | .brackets opening entries (some closing) after :: outer =>
    g.afterBrackets opening entries closing after outer l
  | .mapping indent offset entries :: outer => g.inMapping indent offset entries outer l
  | .sequence indent offset entries :: outer => g.inSequence indent offset entries outer l

/-! ## Whole trees -/

/-- Takes a lexeme in, after the nodes that it closes are closed. -/
def feed? (g : Growth) (l : Lexeme) : Option Growth :=
  match g.verdict l with
  | .grown g => some g
  | .refused => none
  | .closing =>
    match _h : g.close? with
    | some g' => feed? g' l
    | none => none
termination_by g.nodes.length
decreasing_by exact length_close?_lt _h

/-- Closes all nodes; the outermost one is left. -/
def finish? (g : Growth) : Option Tree :=
  match g.nodes with
  | [t] => some t
  | _ =>
    match _h : g.close? with
    | some g' => finish? g'
    | none => none
termination_by g.nodes.length
decreasing_by exact length_close?_lt _h

end Growth

/-- The tree of a document. -/
def tree? (lexemes : List Lexeme) : Option Tree :=
  (lexemes.foldlM Growth.feed? ⟨[.document [] none], false⟩).bind (·.finish?)

end Lox.Yaml
