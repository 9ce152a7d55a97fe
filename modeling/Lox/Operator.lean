import Lox.RuntimeError
import Lox.Value

namespace Lox

namespace Value

def compare (operator : Token) (test : Float → Float → Bool) :
    Value → Value → Except RuntimeError Value
  | .number a, .number b => .ok (.bool (test a b))
  | _, _ => .error ⟨.operandsNotNumbers, operator⟩

def calculate (operator : Token) (operation : Float → Float → Float) :
    Value → Value → Except RuntimeError Value
  | .number a, .number b => .ok (.number (operation a b))
  | _, _ => .error ⟨.operandsNotNumbers, operator⟩

def add (operator : Token) : Value → Value → Except RuntimeError Value
  | .number a, .number b => .ok (.number (a + b))
  | .string a, .string b => .ok (.string (a ++ b))
  | _, _ => .error ⟨.operandsNotAddable, operator⟩

def applyUnary (operator : Token) (operand : Value) : Except RuntimeError Value :=
  match operator.kind, operand with
  | .minus, .number x => .ok (.number (-x))
  | .minus, _ => .error ⟨.operandNotNumber, operator⟩
  | .bang, _ => .ok (.bool !operand.truthy)
  | _, _ => .error ⟨.unsupportedUnary, operator⟩

def applyBinary (operator : Token) (left right : Value) : Except RuntimeError Value :=
  match operator.kind with
  | .equalEqual => .ok (.bool (left.equals right))
  | .bangEqual => .ok (.bool !left.equals right)
  | .plus => add operator left right
  | .minus => calculate operator (· - ·) left right
  | .star => calculate operator (· * ·) left right
  | .slash => calculate operator (· / ·) left right
  | .greater => compare operator (· > ·) left right
  | .greaterEqual => compare operator (· ≥ ·) left right
  | .less => compare operator (· < ·) left right
  | .lessEqual => compare operator (· ≤ ·) left right
  | _ => .error ⟨.unsupportedBinary, operator⟩

def decides (operator : Token) (left : Value) : Bool :=
  if operator.kind = .orWord then left.truthy else !left.truthy

end Value

end Lox
