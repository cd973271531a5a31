import Treewalk.Evaluation
import Treewalk.Proofs.Tree.Contents

/-!
# Evaluation over other operators

The evaluator takes its operators from a table, so two runs can be compared
that differ only in what their operators do. The strict table has no answer
where a well-formed program never asks: it stops at an operator that is not of
the language, and at a quotient that the machine cannot form. The operators of
the language depend on the kind of their token, blame what goes wrong on it,
and yield no function.
-/

namespace Treewalk

open Machine

namespace Operators

/-- The quotient that the machine can form. -/
def quotient? (x y : Float) : Option Float := if y == 0 then none else some (x / y)

/-- The kinds of prefix operators. -/
def unaryKinds : List Kind := [.bang, .minus]

/-- The kinds of binary operators. -/
def binaryKinds : List Kind :=
  [.equalEqual, .bangEqual, .plus, .minus, .star, .slash, .greater, .greaterEqual, .less,
   .lessEqual]

/-- The operators of the language, with no answer beyond them: a prefix
operator negates a number only if it is a minus, a binary operator has to be
one of ten, and a quotient has to be one that the machine can form. -/
def strict : Operators where
  unary operator v :=
    if operator.kind ∈ unaryKinds then standard.unary operator v else throw .malformed
  binary operator v w :=
    match operator.kind, v, w with
    | .slash, .number x, .number y =>
      if y == 0 then throw (.error ⟨operator, .divisionByZero⟩)
      else match quotient? x y with
        | some z => return .number z
        | none => throw .malformed
    | kind, v, w => if kind ∈ binaryKinds then standard.binary operator v w else throw .malformed

end Operators

/-! ## What operators depend on -/

/-- A failure, blamed on a token. -/
def blamedOn {α : Type} (o : Token) (x : Except RuntimeError α) : Except RuntimeError α :=
  x.mapError fun e => ⟨o, e.cause⟩

/-- A prefix operator depends on the kind of its token alone, and blames
what goes wrong on that token. -/
theorem applyUnary_eq_blamedOn {o o' : Token} (hkind : o'.kind = o.kind) (v : Value) :
    applyUnary o' v = blamedOn o' (applyUnary o v) := by
  unfold applyUnary blamedOn
  rw [hkind]
  split
  · rfl
  · cases v <;> rfl

theorem applyNumeric_eq_blamedOn {o o' : Token} (hkind : o'.kind = o.kind)
    (hlexeme : o'.lexeme = o.lexeme) (x y : Float) :
    applyNumeric o' x y = blamedOn o' (applyNumeric o x y) := by
  unfold applyNumeric
  rw [hkind, hlexeme]
  split
  case h_3 => split <;> rfl
  all_goals rfl

/-- A binary operator depends on kind and lexeme of its token, and blames
what goes wrong on that token. -/
theorem applyBinary_eq_blamedOn {o o' : Token} (hkind : o'.kind = o.kind)
    (hlexeme : o'.lexeme = o.lexeme) (v w : Value) :
    applyBinary o' v w = blamedOn o' (applyBinary o v w) := by
  unfold applyBinary
  rw [hkind]
  split
  · rfl
  · rfl
  · cases v <;> cases w <;> rfl
  · -- anything but two numbers fails before the operator is looked at
    cases v <;> cases w
    case number.number x y => exact applyNumeric_eq_blamedOn hkind hlexeme x y
    all_goals rfl

/-! ## What operators can fail with -/

/-- Faults that the language knows. -/
def RuntimeFault.foreseen : RuntimeFault → Bool
  | .unknownOperator _ => false
  | _ => true

theorem foreseen_of_applyUnary {o : Token} {v : Value} {e : RuntimeError}
    (h : applyUnary o v = .error e) : e.cause.foreseen := by
  unfold applyUnary at h
  split at h
  · cases h
  · cases v <;> cases h <;> rfl

theorem foreseen_of_applyNumeric {o : Token} {x y : Float} {e : RuntimeError}
    (ho : o.kind ∈ [Kind.minus, .star, .slash, .greater, .greaterEqual, .less, .lessEqual])
    (h : applyNumeric o x y = .error e) : e.cause.foreseen := by
  unfold applyNumeric at h
  split at h
  case h_3 =>
    split at h <;> cases h
    rfl
  case h_8 => simp_all
  all_goals cases h

theorem foreseen_of_applyBinary {o : Token} {v w : Value} {e : RuntimeError}
    (ho : o.kind ∈ Operators.binaryKinds) (h : applyBinary o v w = .error e) :
    e.cause.foreseen := by
  unfold applyBinary at h
  split at h
  · cases h
  · cases h
  · cases v <;> cases w <;> cases h <;> rfl
  case h_4 hequal hbang hplus =>
    have hrest : o.kind ∈
        [Kind.minus, .star, .slash, .greater, .greaterEqual, .less, .lessEqual] := by
      simp_all [Operators.binaryKinds]
    cases v <;> cases w
    case number.number x y => exact foreseen_of_applyNumeric hrest h
    all_goals
      cases h
      rfl

/-! ## What operators yield -/

theorem scope?_of_applyUnary {o : Token} {v w : Value} (h : applyUnary o v = .ok w) :
    w.scope? = none := by
  unfold applyUnary at h
  split at h
  · cases h
    rfl
  · cases v <;> cases h
    rfl

theorem scope?_of_applyNumeric {o : Token} {x y : Float} {w : Value}
    (h : applyNumeric o x y = .ok w) : w.scope? = none := by
  unfold applyNumeric at h
  split at h
  case h_3 =>
    split at h <;> cases h
    rfl
  case h_8 => cases h
  all_goals
    cases h
    rfl

/-- No operator yields a function. -/
theorem scope?_of_applyBinary {o : Token} {v v' w : Value} (h : applyBinary o v v' = .ok w) :
    w.scope? = none := by
  unfold applyBinary at h
  split at h
  · cases h
    rfl
  · cases h
    rfl
  · cases v <;> cases v' <;> cases h <;> rfl
  · cases v <;> cases v'
    case number.number x y => exact scope?_of_applyNumeric h
    all_goals cases h

/-! ## The strict table -/

namespace Operators

theorem strict_unary {o : Token} (ho : o.kind ∈ unaryKinds) (v : Value) :
    strict.unary o v = standard.unary o v := if_pos ho

/-- A quotient is formed only after its divisor was found to be no zero. -/
theorem strict_binary {o : Token} (ho : o.kind ∈ binaryKinds) (v w : Value) :
    strict.binary o v w = standard.binary o v w := by
  simp only [strict]
  split
  case h_1 x y hkind =>
    have hquotient : applyBinary o (.number x) (.number y) =
        if y == 0 then .error ⟨o, .divisionByZero⟩ else .ok (.number (x / y)) := by
      simp only [applyBinary, hkind]
      change applyNumeric o x y = _
      simp only [applyNumeric, hkind]
    simp only [standard, hquotient, quotient?]
    split <;> rfl
  case h_2 => rw [if_pos ho]

end Operators

end Treewalk
