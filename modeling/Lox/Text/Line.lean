/-!
# Lines and blanks

The interactive loop reads its input line by line and skips the lines that hold only blanks.

## Contents
- `lines`: a text cut at its line ends.
- `isBlank` and `isBlankText`: white space in the widest sense, byte order mark included.
-/

namespace Lox.Text

/-- The lines of a text. A line ends at a line feed, at a carriage return, or at both together; what
follows the last line end is a line only when it is not empty. -/
def lines : List Char → List (List Char)
  | [] => []
  | '\r' :: '\n' :: rest => [] :: lines rest
  | '\n' :: rest => [] :: lines rest
  | '\r' :: rest => [] :: lines rest
  | c :: rest =>
    match lines rest with
    | [] => [[c]]
    | line :: more => (c :: line) :: more

/-- White space: the ASCII controls from tab to carriage return, every space separator, the line and
paragraph separators, and the byte order mark. -/
def isBlank (c : Char) : Bool :=
  let n := c.toNat
  (0x09 ≤ n && n ≤ 0x0D) || n == 0x20 || n == 0xA0 || n == 0x1680 ||
    (0x2000 ≤ n && n ≤ 0x200A) || n == 0x2028 || n == 0x2029 || n == 0x202F || n == 0x205F ||
    n == 0x3000 || n == 0xFEFF

/-- A text without any visible character. -/
def isBlankText (cs : List Char) : Bool := cs.all isBlank

end Lox.Text
