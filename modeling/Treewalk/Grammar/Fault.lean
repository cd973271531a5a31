import Treewalk.SyntaxError

/-!
# Grammatical faults

What can be wrong with a token list, and how it is worded. A fault is kept
with the token at which it was noticed and the number of tokens that were
left there, so that faults can be ordered by position.
-/

namespace Treewalk

/-- The most parameters or arguments a list may hold. -/
def maxArguments : Nat := 255

/-- What is wrong. -/
inductive GrammarFault where
  | nestingTooDeep
  | noFunctionName
  | noParenAfterFunctionName
  | noParameterName
  | tooManyParameters
  | noParenAfterParameters
  | noFunctionBody
  | noVariableName
  | noEndOfVariable
  | noParenAfterIf
  | noParenAfterIfCondition
  | noParenAfterWhile
  | noParenAfterCondition
  | noParenAfterFor
  | noEndOfLoopCondition
  | noParenAfterForClauses
  | noEndOfPrint
  | returnOutsideFunction
  | noEndOfReturn
  | noEndOfExpression
  | noEndOfBlock
  | invalidTarget
  | tooManyArguments
  | noParenAfterArguments
  | noParenAfterExpression
  | noExpression
  deriving DecidableEq, Repr

/-- How a fault is worded. -/
def GrammarFault.message : GrammarFault → String
  | nestingTooDeep => "Expression nesting too deep."
  | noFunctionName => "Expect function name."
  | noParenAfterFunctionName => "Expect '(' after function name."
  | noParameterName => "Expect parameter name."
  | tooManyParameters => "Can't have more than " ++ toString maxArguments ++ " parameters."
  | noParenAfterParameters => "Expect ')' after parameters."
  | noFunctionBody => "Expect '\x7b' before function body."
  | noVariableName => "Expect variable name."
  | noEndOfVariable => "Expect ';' after variable declaration."
  | noParenAfterIf => "Expect '(' after 'if'."
  | noParenAfterIfCondition => "Expect ')' after if condition."
  | noParenAfterWhile => "Expect '(' after 'while'."
  | noParenAfterCondition => "Expect ')' after condition."
  | noParenAfterFor => "Expect '(' after 'for'."
  | noEndOfLoopCondition => "Expect ';' after loop condition."
  | noParenAfterForClauses => "Expect ')' after for clauses."
  | noEndOfPrint => "Expect ';' after value."
  | returnOutsideFunction => "Can't return from top-level code."
  | noEndOfReturn => "Expect ';' after return value."
  | noEndOfExpression => "Expect ';' after expression."
  | noEndOfBlock => "Expect '\x7d' after block."
  | invalidTarget => "Invalid assignment target."
  | tooManyArguments => "Can't have more than " ++ toString maxArguments ++ " arguments."
  | noParenAfterArguments => "Expect ')' after arguments."
  | noParenAfterExpression => "Expect ')' after expression."
  | noExpression => "Expect expression."

/-- A fault at a token. -/
structure Fault where
  /-- The tokens left at the fault, its own included. -/
  left : Nat
  /-- The token, or nothing where no token is left. -/
  token : Option Token
  cause : GrammarFault
  deriving Repr

namespace Fault

/-- The position of the fault in a list of `total` tokens. -/
def position (total : Nat) (f : Fault) : Nat := total - f.left

/-- The error a fault is reported as. Where no token is left, it is reported
at the end of input. -/
def error (f : Fault) : SyntaxError :=
  .atToken (f.token.getD ⟨.endOfInput, "", .nil, 1⟩) f.cause.message

end Fault

end Treewalk
