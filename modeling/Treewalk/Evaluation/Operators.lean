import Treewalk.RuntimeError

/-!
# Operators

What the operators do to values. The kind of the operator token decides;
its lexeme only appears in one error.
-/

namespace Treewalk

/-- The operand of an operator that works on a number. -/
def numberOperand (operator : Token) : Value → Except RuntimeError Float
  | .number x => .ok x
  | _ => .error ⟨operator, .operandNotNumber⟩

/-- The operands of an operator that works on two numbers. -/
def numberOperands (operator : Token) : Value → Value → Except RuntimeError (Float × Float)
  | .number x, .number y => .ok (x, y)
  | _, _ => .error ⟨operator, .operandsNotNumbers⟩

/-- A prefix operator: `!` negates truth, any other negates a number. -/
def applyUnary (operator : Token) (v : Value) : Except RuntimeError Value :=
  if operator.kind = .bang then .ok (.bool !v.truthy)
  else (numberOperand operator v).map fun x => .number (-x)

/-- The sum of two numbers, or two strings joined. -/
def applyPlus (operator : Token) : Value → Value → Except RuntimeError Value
  | .number x, .number y => .ok (.number (x + y))
  | .string s, .string t => .ok (.string (s ++ t))
  | _, _ => .error ⟨operator, .operandsNotAddable⟩

/-- An operator on two numbers. Division by either zero is an error. -/
def applyNumeric (operator : Token) (x y : Float) : Except RuntimeError Value :=
  match operator.kind with
  | .minus => .ok (.number (x - y))
  | .star => .ok (.number (x * y))
  | .slash => if y == 0 then .error ⟨operator, .divisionByZero⟩ else .ok (.number (x / y))
  | .greater => .ok (.bool (x > y))
  | .greaterEqual => .ok (.bool (x ≥ y))
  | .less => .ok (.bool (x < y))
  | .lessEqual => .ok (.bool (x ≤ y))
  | _ => .error ⟨operator, .unknownOperator operator.lexeme⟩

/-- A binary operator. Equality takes any operands and sums have rules of
their own; for all others the operands are checked before the operator. -/
def applyBinary (operator : Token) (left right : Value) : Except RuntimeError Value :=
  match operator.kind with
  | .equalEqual => .ok (.bool (left.equals right))
  | .bangEqual => .ok (.bool !(left.equals right))
  | .plus => applyPlus operator left right
  | _ => do
    let (x, y) ← numberOperands operator left right
    applyNumeric operator x y

end Treewalk
