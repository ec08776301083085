import Lox.Value
import Lox.Failure

/-!
# Operators

What the operators do with values. Arithmetic and comparison take numbers; addition also joins two
texts. Nothing is converted.

## Contents
- `UnaryOp.apply`, `BinaryOp.apply`: operators applied to values.
- `LogicalOp.decides`: whether the left operand is the result.
-/

namespace Lox

/-- A unary operator applied to a value. -/
def UnaryOp.apply : UnaryOp → Value → Except RuntimeError.Cause Value
  | .not, v => .ok (.bool (!v.isTruthy))
  | .negate, .number x => .ok (.number (-x))
  | .negate, _ => .error .operandNotNumber

/-- An operation on two numbers applied to values. -/
def onNumbers (f : Float → Float → Value) : Value → Value → Except RuntimeError.Cause Value
  | .number x, .number y => .ok (f x y)
  | _, _ => .error .operandsNotNumbers

/-- The sum of two numbers, or two texts joined. -/
def addValues : Value → Value → Except RuntimeError.Cause Value
  | .number x, .number y => .ok (.number (x + y))
  | .string s, .string t => .ok (.string (s ++ t))
  | _, _ => .error .operandsNotAddable

/-- A binary operator applied to values. -/
def BinaryOp.apply : BinaryOp → Value → Value → Except RuntimeError.Cause Value
  | .equal, a, b => .ok (.bool (a.equals b))
  | .notEqual, a, b => .ok (.bool (!a.equals b))
  | .add, a, b => addValues a b
  | .subtract, a, b => onNumbers (fun x y => .number (x - y)) a b
  | .multiply, a, b => onNumbers (fun x y => .number (x * y)) a b
  | .divide, a, b => onNumbers (fun x y => .number (x / y)) a b
  | .less, a, b => onNumbers (fun x y => .bool (x < y)) a b
  | .lessEqual, a, b => onNumbers (fun x y => .bool (x ≤ y)) a b
  | .greater, a, b => onNumbers (fun x y => .bool (x > y)) a b
  | .greaterEqual, a, b => onNumbers (fun x y => .bool (x ≥ y)) a b

/-- Whether the left operand decides, and is the result. -/
def LogicalOp.decides : LogicalOp → Value → Bool
  | .or, v => v.isTruthy
  | .and, v => !v.isTruthy

end Lox
