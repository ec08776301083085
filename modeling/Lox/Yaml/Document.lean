import Lox.Yaml.Inline

/-!
# Documents

A text holds one document, which may be empty. Blank lines and comments may stand around it;
anchors, tags, aliases, directives and block scalars are not read.

## Contents
- `unifyLineEnds`, `body?`: the part of a text that is the document.
- `read?`: what a text means.
-/

namespace Lox.Yaml

/-- The text with every line end a single line feed. -/
def unifyLineEnds : List Char → List Char
  | [] => []
  | '\r' :: '\n' :: cs => '\n' :: unifyLineEnds cs
  | c :: cs => c :: unifyLineEnds cs

/-- The text from the first line on that holds more than blanks and a comment, and whether no byte
order mark stands in front of it. -/
def body (lines : List (List Char)) : Bool × List Char :=
  match lines.dropWhile fun line => isIdle (unmarked line) with
  | [] => (true, [])
  | line :: lines =>
    (line.head? != some '\ufeff', List.intercalate ['\n'] (unmarked line :: lines))

/-- What a text means; nothing, when it is no document. -/
def read? (text : String) : Option Datum := do
  let (fresh, cs) := body ((unifyLineEnds text.toList).splitOn '\n')
  let lexemes ← lexemes? fresh cs
  let tree ← tree? lexemes
  (Node.ofTree? tree).map (·.toDatum)

end Lox.Yaml
