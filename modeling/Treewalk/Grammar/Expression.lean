import Treewalk.Grammar.Cursor

/-!
# Reading expressions

From loosest to tightest: assignment, which nests to the right; six levels
of binary operators, which nest to the left; prefix operators; calls; and
the primary forms. Every nested step takes one unit of the allowed depth,
and running out of it abandons the declaration. Chains of operators and of
calls are loops and take no depth; `room` bounds them, and the number of
tokens is always enough.
-/

namespace Treewalk

/-- A level of binary operators. -/
structure Level where
  operators : List Kind
  node : Expr → Token → Expr → Expr

/-- The levels of binary operators, from loosest to tightest. -/
def levels : List Level :=
  [⟨[.kwOr], .logical⟩,
   ⟨[.kwAnd], .logical⟩,
   ⟨[.bangEqual, .equalEqual], .binary⟩,
   ⟨[.greater, .greaterEqual, .less, .lessEqual], .binary⟩,
   ⟨[.minus, .plus], .binary⟩,
   ⟨[.slash, .star], .binary⟩]

namespace Reading

/-- Reads the rest of a chain of operators of one level behind `left`. -/
def chain (operand : Reading Expr) (level : Level) : Nat → Expr → Reading Expr
  | 0, left => return left
  | room + 1, left => do
    match ← accept level.operators with
    | none => return left
    | some operator => chain operand level room (level.node left operator (← operand))

/-- Reads the argument lists behind a callee. -/
def calls (arguments : Reading (List Expr)) : Nat → Expr → Reading Expr
  | 0, callee => return callee
  | room + 1, callee => do
    if ← take .leftParen then
      let arguments' ← arguments
      let paren ← expect .rightParen .noParenAfterArguments
      calls arguments room (.call callee paren arguments')
    else
      return callee

/-- The tokens that are an expression on their own or open one. -/
def primaryKinds : List Kind :=
  [.kwFalse, .kwTrue, .kwNil, .number, .string, .identifier, .leftParen]

/-- Reads a literal, a variable or an expression in parentheses. -/
def primary (inner : Reading Expr) : Reading Expr := do
  match ← accept primaryKinds with
  | none => refuse .noExpression
  | some t =>
    match t.kind with
    | .kwFalse => return .literal (.bool false)
    | .kwTrue => return .literal (.bool true)
    | .kwNil => return .literal .nil
    | .identifier => return .name t
    | .leftParen =>
      let e ← inner
      let _ ← expect .rightParen .noParenAfterExpression
      return .grouping e
    | _ => return .literal t.literal

/-- Completes an assignment whose sign `equals` was just read, `rest` being
the tokens behind the sign. A target that is no variable is noted at the
sign, and stands for the whole. -/
def assignTo (target : Expr) (equals : Token) (rest : List Token) (value : Expr) :
    Reading Expr := fun c =>
  match target with
  | .name name => .ok (.assign name value) c
  | _ => .ok target (c.noteAt equals rest .invalidTarget)

mutual

/-- Reads an expression. -/
def expression (room : Nat) : Nat → Reading Expr
  | 0 => throw .tooDeep
  | depth + 1 => do
    let target ← operation room depth levels
    match ← accept [.equal] with
    | none => return target
    | some equals =>
      let rest := (← get).ahead
      let value ← expression room depth
      assignTo target equals rest value

/-- Reads an operation of one of the given levels. -/
def operation (room : Nat) : Nat → List Level → Reading Expr
  | 0, _ => throw .tooDeep
  | depth + 1, [] => unary room depth
  | depth + 1, level :: tighter => do
    let left ← operation room depth tighter
    chain (operation room depth tighter) level room left

/-- Reads prefix operators and what they apply to. -/
def unary (room : Nat) : Nat → Reading Expr
  | 0 => throw .tooDeep
  | depth + 1 => do
    match ← accept [.bang, .minus] with
    | some operator => return .unary operator (← unary room depth)
    | none =>
      let callee ← primary (expression room depth)
      calls (listed (expression room depth) .tooManyArguments room) room callee

end

end Reading

end Treewalk
