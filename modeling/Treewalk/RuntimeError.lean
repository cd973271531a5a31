import Treewalk.Token

/-!
# Runtime errors

What can go wrong while a program runs, and how it is worded. An error
carries the token it is blamed on, which gives the line to report.
-/

namespace Treewalk

/-- What went wrong. -/
inductive RuntimeFault where
  | operandNotNumber
  | operandsNotNumbers
  /-- A sum of anything but two numbers or two strings. -/
  | operandsNotAddable
  | divisionByZero
  | notCallable
  | wrongArity (expected given : Nat)
  | undefinedVariable (name : String)
  /-- A binary operator that no rule covers. -/
  | unknownOperator (lexeme : String)
  deriving DecidableEq, Repr

/-- How a fault is worded. -/
def RuntimeFault.message : RuntimeFault → String
  | operandNotNumber => "Operand must be a number."
  | operandsNotNumbers => "Operands must be numbers."
  | operandsNotAddable => "Operands must be two numbers or two strings."
  | divisionByZero => "Division by zero."
  | notCallable => "Can only call functions and classes."
  | wrongArity expected given =>
    "Expected " ++ toString expected ++ " arguments but got " ++ toString given ++ "."
  | undefinedVariable name => "Undefined variable '" ++ name ++ "'."
  | unknownOperator lexeme => "Unknown binary operator '" ++ lexeme ++ "'."

/-- The text of a message with the line it belongs to. -/
def located (message : String) (line : Int) : String :=
  message ++ "\n[line " ++ toString line ++ "]"

/-- A fault and the token it is blamed on. -/
structure RuntimeError where
  token : Token
  cause : RuntimeFault
  deriving Repr

namespace RuntimeError

/-- How the error is worded. -/
def message (e : RuntimeError) : String := e.cause.message

/-- The line the error is reported at. -/
def line (e : RuntimeError) : Int := e.token.line

/-- How the error reads. -/
def text (e : RuntimeError) : String := located e.message e.line

end RuntimeError

end Treewalk
