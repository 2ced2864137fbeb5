import LoxLang.Interruption
import LoxLang.Value.Basic

/-!
The operators on values. Sums are of two numbers or two texts, order and the other operators are of
numbers only, and any two values can be compared for equality. Arithmetic is that of binary64, in
which every quotient has a value.
-/

namespace LoxLang.Value

def applyUnary (operator : Token) (right : Value) : Except Interruption Value :=
  match operator.kind with
  | .bang => .ok (.bool !right.isTruthy)
  | .minus =>
      match right with
      | .number right => .ok (.number (-right))
      | _ => .error (.located operator .operandNotNumber)
  | _ => .error (.fault (.unknownUnary operator.lexeme))

def onNumbers (operator : Token) (left right : Value) (apply : Float → Float → Value) :
    Except Interruption Value :=
  match left, right with
  | .number left, .number right => .ok (apply left right)
  | _, _ => .error (.located operator .operandsNotNumbers)

def plus (operator : Token) (left right : Value) : Except Interruption Value :=
  match left, right with
  | .number left, .number right => .ok (.number (left + right))
  | .text left, .text right => .ok (.text (left ++ right))
  | _, _ => .error (.located operator .operandsNotAddable)

def applyBinary (operator : Token) (left right : Value) : Except Interruption Value :=
  match operator.kind with
  | .bangEqual => .ok (.bool !(left.isEqual right))
  | .equalEqual => .ok (.bool (left.isEqual right))
  | .greater => onNumbers operator left right fun left right => .bool (left > right)
  | .greaterEqual => onNumbers operator left right fun left right => .bool (left ≥ right)
  | .less => onNumbers operator left right fun left right => .bool (left < right)
  | .lessEqual => onNumbers operator left right fun left right => .bool (left ≤ right)
  | .minus => onNumbers operator left right fun left right => .number (left - right)
  | .plus => plus operator left right
  | .slash => onNumbers operator left right fun left right => .number (left / right)
  | .star => onNumbers operator left right fun left right => .number (left * right)
  | _ => .error (.fault (.unknownBinary operator.lexeme))

/-- Whether the left operand alone is the value of `or` or `and`. -/
def settles (operator : Token) (left : Value) : Bool :=
  if operator.kind = .or then left.isTruthy else !left.isTruthy

end LoxLang.Value
