import Lox.Location
import Lox.Decimal.Reading

/-!
# Tokens

A token is a lexeme of the source with its kind and its place. The value of a number or a string is
a function of the lexeme, so a token does not store it.

## Contents
- `Literal`: the values that a program can write down.
- `Token.Kind`: the kinds of token, their keywords and operators.
- `Token`, `Token.literal`: tokens and the values that they spell.
-/

namespace Lox

/-- A value written in the source. -/
inductive Literal
  | nil
  | bool (b : Bool)
  | number (x : Float)
  | string (s : String)

namespace Token

/-- The kinds of token, the end of the source apart. -/
inductive Kind
  | leftParen | rightParen | leftBrace | rightBrace
  | comma | dot | minus | plus | semicolon | slash | star
  | bang | bangEqual | equal | equalEqual | greater | greaterEqual | less | lessEqual
  | identifier | string | number
  | «and» | «break» | «class» | «continue» | «else» | «false» | «for» | «fun» | «if» | «nil»
  | «or» | «print» | «return» | «super» | «this» | «true» | «var» | «while»
deriving DecidableEq, Repr

/-- The name of a kind in a token listing. -/
def Kind.name : Kind → String
  | .leftParen => "LPAREN"
  | .rightParen => "RPAREN"
  | .leftBrace => "LBRACE"
  | .rightBrace => "RBRACE"
  | .comma => "COMMA"
  | .dot => "DOT"
  | .minus => "MINUS"
  | .plus => "PLUS"
  | .semicolon => "SEMICOLON"
  | .slash => "SLASH"
  | .star => "STAR"
  | .bang => "BANG"
  | .bangEqual => "NE"
  | .equal => "ASSIGN"
  | .equalEqual => "EQ"
  | .greater => "GT"
  | .greaterEqual => "GE"
  | .less => "LT"
  | .lessEqual => "LE"
  | .identifier => "IDENTIFIER"
  | .string => "STRING"
  | .number => "NUMBER"
  | .and => "AND"
  | .break => "BREAK"
  | .class => "CLASS"
  | .continue => "CONTINUE"
  | .else => "ELSE"
  | .false => "FALSE"
  | .for => "FOR"
  | .fun => "FUN"
  | .if => "IF"
  | .nil => "NIL"
  | .or => "OR"
  | .print => "PRINT"
  | .return => "RETURN"
  | .super => "SUPER"
  | .this => "THIS"
  | .true => "TRUE"
  | .var => "VAR"
  | .while => "WHILE"

/-- The name of the end of the source in a token listing. -/
def endName : String := "EOF"

/-- The keywords of the language. -/
def keywords : List (String × Kind) :=
  [("and", .and), ("break", .break), ("class", .class), ("continue", .continue), ("else", .else),
   ("false", .false), ("for", .for), ("fun", .fun), ("if", .if), ("nil", .nil), ("or", .or),
   ("print", .print), ("return", .return), ("super", .super), ("this", .this), ("true", .true),
   ("var", .var), ("while", .while)]

/-- A word is the keyword that it spells, or else an identifier. -/
def wordKind (word : String) : Kind := (keywords.lookup word).getD .identifier

/-- Operators of two characters; they win over those of one. -/
def doubleOperator? : Char → Char → Option Kind
  | '!', '=' => some .bangEqual
  | '=', '=' => some .equalEqual
  | '<', '=' => some .lessEqual
  | '>', '=' => some .greaterEqual
  | _, _ => none

/-- Punctuation and operators of one character. -/
def singleOperator? : Char → Option Kind
  | '(' => some .leftParen
  | ')' => some .rightParen
  | '{' => some .leftBrace
  | '}' => some .rightBrace
  | ',' => some .comma
  | '.' => some .dot
  | '-' => some .minus
  | '+' => some .plus
  | ';' => some .semicolon
  | '/' => some .slash
  | '*' => some .star
  | '!' => some .bang
  | '=' => some .equal
  | '<' => some .less
  | '>' => some .greater
  | _ => none

end Token

/-- A lexeme with its kind and its place. -/
structure Token where
  kind : Token.Kind
  lexeme : String
  span : Span
deriving DecidableEq, Repr

namespace Token

/-- The value that a lexeme spells: the number, the text between the quotes, or nothing. -/
def literalOf : Kind → String → Literal
  | .number, lexeme => .number (Decimal.ofLiteral lexeme.toList)
  | .string, lexeme => .string (String.ofList (lexeme.toList.drop 1).dropLast)
  | _, _ => .nil

/-- The value that a token spells. -/
def literal (t : Token) : Literal := literalOf t.kind t.lexeme

end Token

end Lox
