import Lox.Yaml.Scalar

/-!
# Lexemes of a document

A document is a row of lexemes: scalars, the marks and brackets that structure it, and what stands
between them. Where a scalar ends depends on how far the lines behind it are indented, so
indentation is counted on the way.

## Contents
- `Lexeme`: what a document is a row of.
- `isEmpty`, `mark?`, `startsPlain`, `isBoundary`: what may stand where.
- `continues`, `plainLength`, `quotedLength`: how far a scalar goes.
- `Scan`: a text that is being taken apart; `Scan.inBlock?` and `Scan.inBrackets?` pass a lexeme.
- `lexemes?`: the lexemes of a document.
-/

namespace Lox.Yaml

/-! ## Lexemes -/

/-- What a lexeme is. -/
inductive Lexeme.Kind
  /-- Three hyphens in front of the document. -/
  | documentMark
  /-- Spaces and tabs. -/
  | space
  | comment
  | lineEnd
  /-- The hyphen in front of an item. -/
  | item
  /-- The question mark in front of a key. -/
  | key
  /-- The colon in front of a value. -/
  | value
  | comma
  | opening (isMapping : Bool)
  | closing (isMapping : Bool)
  | scalar (style : Style)
deriving DecidableEq, Repr

/-- A piece of a document. -/
structure Lexeme where
  kind : Lexeme.Kind
  text : List Char
  /-- The number of units in front of it. -/
  offset : Nat
  /-- How far its line is indented, as far as that is known in front of it. -/
  indent : Nat
deriving Repr

namespace Lexeme

/-- The number of units up to its end. -/
def finish (l : Lexeme) : Nat := l.offset + Text.width l.text

/-- Whether a lexeme only separates others. -/
def isBlank (l : Lexeme) : Bool := l.kind == .space || l.kind == .comment || l.kind == .lineEnd

end Lexeme

/-! ## Characters -/

/-- Whether a place is blank or the end of the text. -/
def isEmpty : Option Char → Bool
  | none => true
  | some c => c == ' ' || c == '\t' || c == '\n' || c == '\r'

/-- The characters that structure collections in brackets. -/
def isFlowIndicator (c : Char) : Bool :=
  c == ',' || c == '[' || c == ']' || c == '\x7b' || c == '\x7d'

/-- Whether a mark such as the colon stands for itself in front of `next`. -/
def standsAlone (inBrackets : Bool) (next : Option Char) : Bool :=
  isEmpty next || (inBrackets && next.any isFlowIndicator)

/-- The mark with which a text begins. -/
def mark? (inBrackets : Bool) : List Char → Option Lexeme.Kind
  | [] => none
  | c :: cs =>
    if !standsAlone inBrackets cs.head? then none
    else if c = '-' then some .item
    else if c = '?' then some .key
    else if c = ':' then some .value
    else none

/-- Whether a text begins with `c`, three times, on its own. -/
def isTriple (c : Char) (cs : List Char) : Bool :=
  cs.take 3 == [c, c, c] && isEmpty (cs.drop 3).head?

/-- Whether a line marks the beginning or the end of a document. -/
def isBoundary (cs : List Char) : Bool := isTriple '-' cs || isTriple '.' cs

/-- Whether a plain scalar may begin with `cs`. -/
def startsPlain : List Char → Bool
  | [] => false
  | c :: _ => !("#&*!|>'\"%@\x60,[]\x7b\x7d \t\n".toList.contains c)

/-- Whether a line holds nothing but blanks and a comment. -/
def isIdle (line : List Char) : Bool :=
  match line.dropWhile fun c => c == ' ' || c == '\t' with
  | [] => true
  | c :: _ => c == '#'

/-- A line outside of documents without the byte order mark in front of it. -/
def unmarked : List Char → List Char
  | '\ufeff' :: cs => cs
  | cs => cs

/-- The number of spaces at the beginning of a text. -/
def countSpaces (cs : List Char) : Nat := (cs.takeWhile (· == ' ')).length

/-- The number of spaces and tabs at the beginning of a text. -/
def countBlanks (cs : List Char) : Nat := (cs.takeWhile fun c => c == ' ' || c == '\t').length

/-- The number of characters up to the end of the line. -/
def lineLength (cs : List Char) : Nat := (cs.takeWhile (· != '\n')).length

/-! ## How far a scalar goes -/

/-- Whether the line `cs` may carry on a scalar that has to be indented by `least` spaces. Where no
indentation is asked for, only the bounds of a document end a scalar. -/
def continues (least : Nat) (cs : List Char) : Bool :=
  if least = 0 then !isBoundary cs
  else least ≤ countSpaces cs || (cs.drop (countSpaces cs)).head? == some '\n'

/-- The length of a plain scalar that goes on with the given text: `done` characters are passed, and
the `held` blanks behind them count if more of the scalar follows. -/
def plainLength (inBrackets : Bool) (least done held : Nat) : List Char → Nat
  | [] => done
  | c :: cs =>
    if c = ':' ∧ standsAlone inBrackets cs.head? then done
    else if c = ' ' ∨ c = '\t' ∨ c = '\n' then
      if cs.head? = some '#' ∨ (c = '\n' ∧ continues least cs = false) then done
      else plainLength inBrackets least done (held + 1) cs
    else if inBrackets && isFlowIndicator c then done
    else if c = '\r' ∧ cs.head? = some '#' then done + held + 1
    else plainLength inBrackets least (done + held + 1) 0 cs

/-- The number of characters up to the closing double quote, which is counted, when `count` are
passed already. -/
def doubleLength? (count : Nat) : List Char → Option Nat
  | [] => none
  | '"' :: _ => some (count + 1)
  | '\\' :: _ :: cs => doubleLength? (count + 2) cs
  | _ :: cs => doubleLength? (count + 1) cs

/-- The number of characters up to the closing single quote, which is counted, when `count` are
passed already. Inside a scalar a single quote is written twice. -/
def singleLength? (count : Nat) : List Char → Option Nat
  | [] => none
  | '\'' :: '\'' :: cs => singleLength? (count + 2) cs
  | '\'' :: _ => some (count + 1)
  | _ :: cs => singleLength? (count + 1) cs

/-- The number of characters up to a line that cannot carry on a scalar; `remaining` if there is no
such line so early. -/
def lengthUpToUnindented (least remaining : Nat) : List Char → Nat
  | [] => remaining
  | c :: cs =>
    match remaining with
    | 0 => 0
    | remaining + 1 =>
      if c = '\n' ∧ continues least cs = false then 0
      else lengthUpToUnindented least remaining cs + 1

/-- The length of the quoted scalar with which a text begins. One that is never closed goes on to
the end of the text; one that is goes on at most to a line that cannot carry it on. -/
def quotedLength (least : Nat) (style : Style) (cs : List Char) : Nat :=
  match if style = .double then doubleLength? 1 cs.tail else singleLength? 1 cs.tail with
  | none => cs.length
  | some count => lengthUpToUnindented least count cs

/-! ## Taking a text apart -/

/-- A text that is being taken apart. -/
structure Scan where
  rest : List Char
  /-- The number of units that are passed. -/
  offset : Nat
  /-- The lexemes that are passed, the latest one first. -/
  lexemes : List Lexeme
  /-- Whether only spaces and marks stand on the line so far. -/
  fresh : Bool
  /-- How far the line is indented by spaces and marks. -/
  indent : Nat
  /-- The column of the block that is being written; blanks behind marks count. -/
  column : Nat
  /-- How far a line has to be indented to carry on what the lines before it have begun. -/
  least : Nat
  /-- The number of brackets that are open. -/
  level : Nat
  /-- Whether the latest node is closed by a quote or a bracket: a colon may follow it directly. -/
  closed : Bool

namespace Scan

/-- Passes a lexeme of `count` characters. -/
def emit (s : Scan) (kind : Lexeme.Kind) (count : Nat) : Scan :=
  let text := s.rest.take count
  let spaces := kind == .space && text.head? == some ' '
  let mark := kind == .item || kind == .key || kind == .value
  { s with
    rest := s.rest.drop count
    offset := s.offset + Text.width text
    lexemes := ⟨kind, text, s.offset, s.indent⟩ :: s.lexemes
    fresh := kind == .lineEnd || (s.fresh && (kind == .space || mark))
    indent :=
      if kind = .lineEnd then 0
      else if s.fresh && (spaces || mark) then s.indent + count
      else s.indent }

@[simp] theorem emit_rest (s : Scan) (kind : Lexeme.Kind) (count : Nat) :
    (s.emit kind count).rest = s.rest.drop count := rfl

/-- Passes as many blanks; without any there is no lexeme. -/
def gap (s : Scan) (count : Nat) : Scan := if count = 0 then s else s.emit .space count

/-- Passes spaces and tabs. -/
def blanks (s : Scan) : Scan := s.gap (countBlanks s.rest)

theorem length_blanks_le (s : Scan) : s.blanks.rest.length ≤ s.rest.length := by
  unfold blanks gap
  split <;> simp

/-- Passes a mark and the blanks behind it. -/
def mark (s : Scan) (kind : Lexeme.Kind) : Scan := (s.emit kind 1).blanks

theorem length_mark_lt {s : Scan} {kind : Lexeme.Kind} {inBrackets : Bool}
    (h : mark? inBrackets s.rest = some kind) : (s.mark kind).rest.length < s.rest.length := by
  have hle := (s.emit kind 1).length_blanks_le
  cases hr : s.rest with
  | nil => simp [hr, mark?] at h
  | cons c cs =>
    simp only [emit_rest, hr, List.drop_succ_cons, List.drop_zero] at hle
    simp only [mark, List.length_cons]
    omega

/-- Passes the marks at the beginning of a line. Each opens a block in a column of its own. -/
def lineMarks (s : Scan) : Scan :=
  match _h : mark? false s.rest with
  | none => s
  | some kind =>
    lineMarks
      { s.mark kind with
        least := s.column + 1
        column := s.column + ((s.mark kind).offset - s.offset) }
termination_by s.rest.length
decreasing_by exact length_mark_lt _h

/-- Begins a line. Nothing may follow the mark that ends a document; a second document is refused. A
line of one character leaves the indentation of the lines behind it alone. -/
def lineStart? (s : Scan) : Option Scan :=
  if isTriple '.' s.rest then
    let trailing := (s.rest.drop 3).splitOn '\n'
    if isIdle (trailing.headD []) && trailing.tail.all fun line => isIdle (unmarked line) then
      some { s with rest := [] }
    else none
  else if isTriple '-' s.rest then none
  else
    let width := countSpaces s.rest
    let s := { s.gap width with column := width }
    let least := if isEmpty s.rest.tail.head? then s.least else min s.least width
    some ({ s with least := least }).lineMarks

/-- Passes a scalar. -/
def scalar? (s : Scan) (style : Style) : Option Scan :=
  match style with
  | .plain =>
    if startsPlain s.rest then
      some (s.emit (.scalar .plain) (plainLength (0 < s.level) s.least 0 0 s.rest))
    else none
  | style => some (s.emit (.scalar style) (quotedLength s.least style s.rest))

/-- Passes a lexeme outside brackets, with the blanks around it. -/
def inBlock? (s : Scan) : Option Scan :=
  let s := s.blanks
  match mark? false s.rest with
  | some kind => some { s.mark kind with least := s.column + 1 }
  | none =>
    match s.rest.head? with
    | none => some s
    | some '#' => some (s.emit .comment (lineLength s.rest))
    | some '\n' => (s.emit .lineEnd 1).lineStart?
    | some '[' => some { s.emit (.opening false) 1 with level := 1, closed := false }
    | some '\x7b' => some { s.emit (.opening true) 1 with level := 1, closed := false }
    | some '"' => s.scalar? .double
    | some '\'' => s.scalar? .single
    | some _ => s.scalar? .plain

/-- Whether a line of the given indentation may carry on a collection in brackets. The bracket that
closes the outermost one may stand one column before the others. -/
def carriesOn (s : Scan) (width : Nat) : Bool :=
  let c := s.rest.head?
  let indented := s.least ≤ width || c == some '#'
  (indented && !(width == 0 && isBoundary s.rest)) ||
    (width + 1 == s.least && s.level == 1 && (c == some ']' || c == some '\x7d'))

/-- Ends a line inside brackets. -/
def lineEndInBrackets? (s : Scan) : Option Scan :=
  let s := s.emit .lineEnd 1
  let width := countSpaces s.rest
  let s := { s.gap width with column := width }.blanks
  if s.rest.head? = some '\n' ∨ s.carriesOn width then some s else none

/-- Passes a lexeme inside brackets. A comma directly behind a mark shows that an empty scalar
stands between them. -/
def inBrackets? (s : Scan) : Option Scan :=
  match mark? true s.rest with
  | some kind =>
    let s := { s.mark kind with closed := false }
    if s.rest.head? = some ',' then some (s.emit (.scalar .plain) 0) else some s
  | none =>
    match s.rest.head? with
    | none => some s
    | some '\n' => s.lineEndInBrackets?
    | some ' ' | some '\t' => some s.blanks
    | some ',' => some { s.mark .comma with closed := false }
    | some '#' => some (s.emit .comment (lineLength s.rest))
    | some '[' => some { s.emit (.opening false) 1 with level := s.level + 1, closed := false }
    | some '\x7b' => some { s.emit (.opening true) 1 with level := s.level + 1, closed := false }
    | some ']' => some { s.emit (.closing false) 1 with level := s.level - 1, closed := true }
    | some '\x7d' => some { s.emit (.closing true) 1 with level := s.level - 1, closed := true }
    | some '"' => { s with closed := true }.scalar? .double
    | some '\'' => { s with closed := true }.scalar? .single
    | some c =>
      if c = ':' ∧ s.closed then some { s.mark .value with closed := false }
      else { s with closed := false }.scalar? .plain

/-- Passes lexemes up to the end of the text. The fuel bounds their number. -/
def toEnd? (fuel : Nat) (s : Scan) : Option Scan :=
  match fuel with
  | 0 => if s.rest.isEmpty then some s else none
  | fuel + 1 =>
    if s.rest.isEmpty then some s
    else (if s.level = 0 then s.inBlock? else s.inBrackets?).bind (toEnd? fuel)

/-- The beginning of a text. -/
def start (fresh : Bool) (cs : List Char) : Scan := ⟨cs, 0, [], fresh, 0, 0, 0, 0, false⟩

end Scan

/-- The lexemes of a document, which begins with a line that is not idle. `fresh` tells whether
nothing stands in front of it on that line. A row of lexemes has no second document, and no bracket
outside those that it closes. -/
def lexemes? (fresh : Bool) (cs : List Char) : Option (List Lexeme) :=
  let s := Scan.start fresh cs
  let begun := if isTriple '-' cs then some (s.emit .documentMark 3) else s.lineStart?
  (begun.bind (Scan.toEnd? (cs.length + 1))).map (·.lexemes.reverse)

end Lox.Yaml
