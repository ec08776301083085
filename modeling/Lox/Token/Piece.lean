import Lox.Token
import Lox.Text.Unit

/-!
# Pieces of a source text

Scanning cuts the whole source text into pieces: white space, comments, tokens, and the parts that
are none of these. No character is left out, so where a piece stands follows from the pieces in
front of it.

## Contents
- `Piece`, `Piece.Shape`: a stretch of the source and what it is.
- `munch`: the longest piece at the front of a text.
- `pieces`: the whole text in pieces.
- `munch_text_append`, `text_pieces`: nothing is lost.
-/

namespace Lox

/-- Why a stretch of the source is no token. -/
inductive Flaw
  /-- A character that begins no token. -/
  | unexpected
  /-- A string without its closing quote. -/
  | unterminated
  /-- Digits and a point without a digit behind it. -/
  | badNumber
deriving DecidableEq, Repr

namespace Piece

/-- What a stretch of the source is. -/
inductive Shape
  | blank
  | comment
  | token (kind : Token.Kind)
  | flaw (flaw : Flaw)
deriving DecidableEq, Repr

end Piece

/-- A stretch of the source text. -/
structure Piece where
  shape : Piece.Shape
  text : List Char
deriving DecidableEq, Repr

namespace Piece

/-- White space between tokens. -/
def isBlank (c : Char) : Bool := c == ' ' || c == '\t' || c == '\r' || c == '\n'

/-- A character that may begin a word. -/
def isWordStart (c : Char) : Bool :=
  ('a' ≤ c && c ≤ 'z') || ('A' ≤ c && c ≤ 'Z') || c == '_'

/-- A character that may continue a word. -/
def isWordChar (c : Char) : Bool := isWordStart c || Decimal.isDigit c

/-- The pieces that begin with a quote: a string up to the next quote, or the whole rest. -/
def munchString (rest : List Char) : Piece × List Char :=
  let body := rest.takeWhile (· != '"')
  match rest.dropWhile (· != '"') with
  | quote :: after => (⟨.token .string, '"' :: body ++ [quote]⟩, after)
  | [] => (⟨.flaw .unterminated, '"' :: body⟩, [])

/-- The pieces that begin with the digits `whole`, where `rest` follows. A point belongs to the
number; it has to be followed by a digit. -/
def munchFraction (whole rest : List Char) : Piece × List Char :=
  match rest with
  | '.' :: after =>
    if (after.takeWhile Decimal.isDigit).isEmpty then (⟨.flaw .badNumber, whole ++ ['.']⟩, after)
    else
      (⟨.token .number, whole ++ '.' :: after.takeWhile Decimal.isDigit⟩,
        after.dropWhile Decimal.isDigit)
  | _ => (⟨.token .number, whole⟩, rest)

theorem munchFraction_of_ne (whole : List Char) {xs : List Char} (h : xs.head? ≠ some '.') :
    munchFraction whole xs = (⟨.token .number, whole⟩, xs) := by
  unfold munchFraction
  split
  · exact absurd rfl h
  · rfl

/-- The pieces that begin with the digit `c`. -/
def munchNumber (c : Char) (rest : List Char) : Piece × List Char :=
  munchFraction (c :: rest.takeWhile Decimal.isDigit) (rest.dropWhile Decimal.isDigit)

/-- The pieces that begin with a letter or an underscore. -/
def munchWord (c : Char) (rest : List Char) : Piece × List Char :=
  let word := c :: rest.takeWhile isWordChar
  (⟨.token (Token.wordKind (String.ofList word)), word⟩, rest.dropWhile isWordChar)

/-- A line comment, up to but not including the line feed. -/
def munchComment (c : Char) (rest : List Char) : Piece × List Char :=
  (⟨.comment, c :: rest.takeWhile (· != '\n')⟩, rest.dropWhile (· != '\n'))

/-- Operators, punctuation, and what is unexpected. -/
def munchOperator (c : Char) (rest : List Char) : Piece × List Char :=
  match rest with
  | d :: after =>
    match Token.doubleOperator? c d, Token.singleOperator? c with
    | some kind, _ => (⟨.token kind, [c, d]⟩, after)
    | none, some kind => (⟨.token kind, [c]⟩, rest)
    | none, none => (⟨.flaw .unexpected, [c]⟩, rest)
  | [] =>
    match Token.singleOperator? c with
    | some kind => (⟨.token kind, [c]⟩, [])
    | none => (⟨.flaw .unexpected, [c]⟩, [])

/-- The longest piece at the front of `c :: rest`, and what follows it. -/
def munch (c : Char) (rest : List Char) : Piece × List Char :=
  if isBlank c then (⟨.blank, [c]⟩, rest)
  else if c == '/' && rest.head? == some '/' then munchComment c rest
  else if c == '"' then munchString rest
  else if Decimal.isDigit c then munchNumber c rest
  else if isWordStart c then munchWord c rest
  else munchOperator c rest

/-! ## Nothing is lost -/

theorem munchString_text_append (rest : List Char) :
    (munchString rest).1.text ++ (munchString rest).2 = '"' :: rest := by
  have h := List.takeWhile_append_dropWhile (p := (· != '"')) (l := rest)
  unfold munchString
  split <;> rename_i heq <;> rw [heq] at h
  · simp [h]
  · simpa using h

theorem munchFraction_text_append (whole rest : List Char) :
    (munchFraction whole rest).1.text ++ (munchFraction whole rest).2 = whole ++ rest := by
  unfold munchFraction
  split
  · split <;> simp
  · rfl

theorem munchNumber_text_append (c : Char) (rest : List Char) :
    (munchNumber c rest).1.text ++ (munchNumber c rest).2 = c :: rest := by
  unfold munchNumber
  rw [munchFraction_text_append, List.cons_append, List.takeWhile_append_dropWhile]

theorem munchWord_text_append (c : Char) (rest : List Char) :
    (munchWord c rest).1.text ++ (munchWord c rest).2 = c :: rest := by
  simp [munchWord]

theorem munchComment_text_append (c : Char) (rest : List Char) :
    (munchComment c rest).1.text ++ (munchComment c rest).2 = c :: rest := by
  simp [munchComment]

theorem munchOperator_text_append (c : Char) (rest : List Char) :
    (munchOperator c rest).1.text ++ (munchOperator c rest).2 = c :: rest := by
  unfold munchOperator
  split <;> split <;> rfl

/-- A piece and what follows it make up the text. -/
theorem munch_text_append (c : Char) (rest : List Char) :
    (munch c rest).1.text ++ (munch c rest).2 = c :: rest := by
  unfold munch
  split
  · rfl
  split
  · exact munchComment_text_append c rest
  split
  · rename_i h
    rw [eq_of_beq h]
    exact munchString_text_append rest
  split
  · exact munchNumber_text_append c rest
  split
  · exact munchWord_text_append c rest
  · exact munchOperator_text_append c rest

/-! ## No piece is empty -/

theorem munchString_text_ne_nil (rest : List Char) : (munchString rest).1.text ≠ [] := by
  unfold munchString
  split <;> simp

theorem munchNumber_text_ne_nil (c : Char) (rest : List Char) :
    (munchNumber c rest).1.text ≠ [] := by
  unfold munchNumber munchFraction
  split
  · split <;> simp
  · simp

theorem munchOperator_text_ne_nil (c : Char) (rest : List Char) :
    (munchOperator c rest).1.text ≠ [] := by
  unfold munchOperator
  split <;> split <;> simp

theorem munch_text_ne_nil (c : Char) (rest : List Char) : (munch c rest).1.text ≠ [] := by
  unfold munch
  split
  · simp
  split
  · simp [munchComment]
  split
  · exact munchString_text_ne_nil rest
  split
  · exact munchNumber_text_ne_nil c rest
  split
  · simp [munchWord]
  · exact munchOperator_text_ne_nil c rest

theorem length_munch_lt (c : Char) (rest : List Char) :
    (munch c rest).2.length < (c :: rest).length := by
  have h := congrArg List.length (munch_text_append c rest)
  have hpos := List.length_pos_iff.mpr (munch_text_ne_nil c rest)
  simp only [List.length_append] at h
  omega

/-! ## The whole text -/

/-- The pieces of a text, in order. -/
def pieces : List Char → List Piece
  | [] => []
  | c :: rest => (munch c rest).1 :: pieces (munch c rest).2
termination_by cs => cs.length
decreasing_by exact length_munch_lt c rest

@[simp] theorem pieces_nil : pieces [] = [] := by rw [pieces]

theorem pieces_cons (c : Char) (rest : List Char) :
    pieces (c :: rest) = (munch c rest).1 :: pieces (munch c rest).2 := by rw [pieces]

/-- The pieces of a text make up the text. -/
theorem text_pieces (cs : List Char) : (pieces cs).flatMap text = cs := by
  fun_induction pieces cs with
  | case1 => rfl
  | case2 c rest ih => rw [List.flatMap_cons, ih, munch_text_append]

end Piece

end Lox
