import Lox.Parsing.Cursor
import Lox.Syntax

/-!
# Expressions

One production for each level of precedence, from assignment down to primary expressions. The levels
take the next lower level as a parameter; only assignments and unary expressions recur, and both
count as nesting levels.

## Contents
- `chain`: operands joined by operators of one level, grouped to the left.
- `items`: a list separated by commas.
- `primary`, `call`: the expressions that bind tightest.
- `assignment`, `unary`: the recursive productions. Their first argument bounds the recursion;
  four times the number of tokens, and four more, is always enough.
-/

namespace Lox.Parsing

/-! ## Repetition -/

/-- The operators and operands that follow `left`. Each one passes a token, so the number of tokens
still to come bounds the repetition. -/
def chainFrom {β : Type} (operator? : Token.Kind → Option β) (operand : Parser Expr)
    (join : β → Expr → Expr → Expr) : Nat → Expr → Parser Expr
  | 0, left => pure left
  | n + 1, left => do
    match (← peek?).bind operator? with
    | none => pure left
    | some op =>
      advance
      let right ← operand
      chainFrom operator? operand join n (join op left right)

/-- Operands joined by operators of one level, grouped to the left. -/
def chain {β : Type} (operator? : Token.Kind → Option β) (operand : Parser Expr)
    (join : β → Expr → Expr → Expr) : Parser Expr := do
  let left ← operand
  chainFrom operator? operand join (← remaining) left

/-- Items separated by commas; `item` is told how many came before it. -/
def itemsFrom {α : Type} (item : Nat → Parser α) : Nat → Nat → Parser (List α)
  | 0, _ => pure []
  | n + 1, count => do
    let first ← item count
    if ← accept .comma then
      let others ← itemsFrom item n (count + 1)
      pure (first :: others)
    else pure [first]

/-- Items separated by commas. Each one passes a token, so the number of tokens still to come bounds
the repetition. -/
def items {α : Type} (item : Nat → Parser α) : Parser (List α) := do
  itemsFrom item ((← remaining) + 1) 0

/-- Reports the item after the last one allowed, and every further one. -/
def checkCount (mode : Mode) (what : String) (count : Nat) : Parser Unit := fun c =>
  if maxArity ≤ count then report mode (c.error (.tooMany what)) c else .ok () c

/-! ## Operators -/

def equalityOp? : Token.Kind → Option BinaryOp
  | .bangEqual => some .notEqual
  | .equalEqual => some .equal
  | _ => none

def comparisonOp? : Token.Kind → Option BinaryOp
  | .greater => some .greater
  | .greaterEqual => some .greaterEqual
  | .less => some .less
  | .lessEqual => some .lessEqual
  | _ => none

def termOp? : Token.Kind → Option BinaryOp
  | .minus => some .subtract
  | .plus => some .add
  | _ => none

def factorOp? : Token.Kind → Option BinaryOp
  | .slash => some .divide
  | .star => some .multiply
  | _ => none

def andOp? : Token.Kind → Option LogicalOp
  | .and => some .and
  | _ => none

def orOp? : Token.Kind → Option LogicalOp
  | .or => some .or
  | _ => none

def unaryOp? : Token.Kind → Option UnaryOp
  | .bang => some .not
  | .minus => some .negate
  | _ => none

/-- A binary expression from the start of its left to the end of its right operand. -/
def joinBinary (op : BinaryOp) (left right : Expr) : Expr :=
  .binary op left right ⟨left.span.start, right.span.stop⟩

/-- A logical expression from the start of its left to the end of its right operand. -/
def joinLogical (op : LogicalOp) (left right : Expr) : Expr :=
  .logical op left right ⟨left.span.start, right.span.stop⟩

/-- The binary and logical levels above `operand`. -/
def disjunction (operand : Parser Expr) : Parser Expr :=
  let factor := chain factorOp? operand joinBinary
  let term := chain termOp? factor joinBinary
  let comparison := chain comparisonOp? term joinBinary
  let equality := chain equalityOp? comparison joinBinary
  let conjunction := chain andOp? equality joinLogical
  chain orOp? conjunction joinLogical

/-! ## Primary expressions and calls -/

/-- A method of the superclass, from the point behind `super` on. -/
def superMethod (start : Location) : Parser Expr := do
  let _ ← expect .dot "'.' after 'super'"
  let method ← expect .identifier "superclass method name"
  pure (.super none method.lexeme (← spanFrom start))

/-- An expression in parentheses, from behind the opening one on. -/
def grouping (expression : Parser Expr) (start : Location) : Parser Expr := do
  let inner ← expression
  let _ ← expect .rightParen "')' after expression"
  pure (.grouping inner (← spanFrom start))

/-- Literals, names, `super` and parentheses. -/
def primary (expression : Parser Expr) : Parser Expr := fun c =>
  match c.rest with
  | [] => .error (c.error .noExpression) c
  | t :: _ =>
    match t.kind with
    | .false => .ok (.literal (.bool false) t.span) c.advance
    | .true => .ok (.literal (.bool true) t.span) c.advance
    | .nil => .ok (.literal .nil t.span) c.advance
    | .number | .string => .ok (.literal t.literal t.span) c.advance
    | .this => .ok (.this none t.span) c.advance
    | .identifier => .ok (.variable ⟨t.lexeme, none, t.span⟩) c.advance
    | .super => superMethod t.span.start c.advance
    | .leftParen => grouping expression t.span.start c.advance
    | _ => .error (c.error .noExpression) c

/-- The arguments of a call, with the closing parenthesis. -/
def arguments (mode : Mode) (expression : Parser Expr) : Parser (List Expr) := do
  let args ←
    if ← check .rightParen then pure []
    else items fun count => do
      checkCount mode "arguments" count
      expression
  let _ ← expect .rightParen "')' after arguments"
  pure args

/-- The calls and property accesses that follow `e`. -/
def callFrom (mode : Mode) (expression : Parser Expr) : Nat → Expr → Parser Expr
  | 0, e => pure e
  | n + 1, e => do
    match ← peek? with
    | some .leftParen =>
      advance
      let args ← arguments mode expression
      callFrom mode expression n (.call e args (← spanFrom e.span.start))
    | some .dot =>
      advance
      let name ← expect .identifier "property name after '.'"
      callFrom mode expression n (.get e name.lexeme ⟨e.span.start, name.span.stop⟩)
    | _ => pure e

/-- A primary expression with its calls and property accesses. -/
def call (mode : Mode) (expression : Parser Expr) : Parser Expr := do
  let e ← primary expression
  callFrom mode expression (← remaining) e

/-! ## Assignment and unary expressions -/

/-- What `target = value` assigns to. A target that is neither a variable nor a property is reported
at the equals sign, and stands for the whole expression. -/
def assignTo (mode : Mode) (equals : Token) (target value : Expr) : Parser Expr :=
  let span : Span := ⟨target.span.start, value.span.stop⟩
  match target with
  | .variable use => pure (.assign use.name none value span)
  | .get object name _ => pure (.set object name value span)
  | _ => do
    report mode (equals.error .badTarget)
    pure target

/-- An assignment, whose left side is read as an expression of a higher level first. -/
def assignmentWith (mode : Mode) (operand value : Parser Expr) : Parser Expr := do
  let target ← disjunction operand
  if ← check .equal then
    let equals ← expect .equal "'='"
    assignTo mode equals target (← value)
  else pure target

/-- A unary operator and its operand, or a call. -/
def unaryWith (mode : Mode) (operand expression : Parser Expr) : Parser Expr := do
  let start ← here
  match (← peek?).bind unaryOp? with
  | some op =>
    advance
    let e ← operand
    pure (.unary op e (← spanFrom start))
  | none => call mode expression

mutual

/-- An assignment or an expression of a higher level. -/
def assignment (mode : Mode) : Nat → Parser Expr
  | 0 => fail .tooNested
  | n + 1 => nested (assignmentWith mode (unary mode n) (assignment mode n))

/-- A unary expression or a call. -/
def unary (mode : Mode) : Nat → Parser Expr
  | 0 => fail .tooNested
  | n + 1 => nested (unaryWith mode (unary mode n) (assignment mode n))

end

end Lox.Parsing
