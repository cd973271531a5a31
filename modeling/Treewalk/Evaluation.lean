import Treewalk.Evaluation.Machine
import Treewalk.Evaluation.Operators
import Treewalk.Limits

/-!
# Evaluation

Expressions are evaluated and statements executed in a scope, which is
passed along and never part of the state, so that leaving a block in any
way cannot leave the wrong scope active. A `return` is a way to complete,
not an error: blocks, branches and loops hand it to their caller untouched
until a call takes its value.

Each nested step takes one unit of the allowed depth. A loop takes none for
going round; it may go round `rounds` times. What operators do is looked up
in a table.
-/

namespace Treewalk

/-- What operators do to values. -/
structure Operators where
  unary : Token → Value → Machine Value
  binary : Token → Value → Value → Machine Value

namespace Machine

/-- Evaluates expressions from left to right. -/
def evaluateAll (evaluate : Expr → Machine Value) : List Expr → Machine (List Value)
  | [] => return []
  | e :: rest => do
    let v ← evaluate e
    return v :: (← evaluateAll evaluate rest)

/-- Executes statements until one returns. -/
def executeAll (execute : Stmt → Machine Completion) : List Stmt → Machine Completion
  | [] => return .normal
  | s :: rest => do
    match ← execute s with
    | .normal => executeAll execute rest
    | .returned v => return .returned v

/-- Goes round while the test holds and the body does not return. -/
def repeatWhile (test : Machine Value) (body : Machine Completion) : Nat → Machine Completion
  | 0 => throw .endless
  | rounds + 1 => do
    if (← test).truthy then
      match ← body with
      | .normal => repeatWhile test body rounds
      | .returned v => return .returned v
    else
      return .normal

/-- Calls a function whose arity has been checked. The parameters are bound
in a new scope inside the one of the declaration. -/
def invoke (run : List Stmt → ScopeId → Machine Completion) (arguments : List Value) :
    Function → Machine Value
  | .closure id _ params scope => do
    let inner ← openScope scope
    defineAll inner (params.zip arguments)
    match ← run (← bodyOf id) inner with
    | .normal => return .nil
    | .returned v => return v
  | .native id _ _ => native id

/-- Calls a value: it has to be a function, and the arguments have to match
its arity. Both errors are blamed on the closing parenthesis. -/
def call (run : List Stmt → ScopeId → Machine Completion) (paren : Token) (callee : Value)
    (arguments : List Value) : Machine Value :=
  match callee with
  | .function f =>
    if arguments.length = f.arity then invoke run arguments f
    else throw (.error ⟨paren, .wrongArity f.arity arguments.length⟩)
  | _ => throw (.error ⟨paren, .notCallable⟩)

end Machine

open Machine

/-- The operators of the language. -/
def Operators.standard : Operators where
  unary operator v := ofExcept (applyUnary operator v)
  binary operator v w := ofExcept (applyBinary operator v w)

mutual

/-- Evaluates an expression in a scope, over a table of operators. -/
def evaluateWith (ops : Operators) (rounds : Nat) : Nat → Expr → ScopeId → Machine Value
  | 0, _, _ => throw .stackOverflow
  | depth + 1, e, scope =>
    match e with
    | .literal value => return value
    | .grouping inner => evaluateWith ops rounds depth inner scope
    | .name token => read scope token
    | .assign name value => do
      let v ← evaluateWith ops rounds depth value scope
      assign scope name v
      return v
    | .logical left operator right => do
      let v ← evaluateWith ops rounds depth left scope
      -- `or` is settled by a true left side, every other connective by a false one
      if v.truthy == (operator.kind == .kwOr) then return v
      else evaluateWith ops rounds depth right scope
    | .unary operator right => do
      let v ← evaluateWith ops rounds depth right scope
      ops.unary operator v
    | .binary left operator right => do
      let v ← evaluateWith ops rounds depth left scope
      let w ← evaluateWith ops rounds depth right scope
      ops.binary operator v w
    | .call callee paren arguments => do
      let f ← evaluateWith ops rounds depth callee scope
      let vs ← evaluateAll (fun a => evaluateWith ops rounds depth a scope) arguments
      call (fun body inner => executeAll (fun s => executeWith ops rounds depth s inner) body)
        paren f vs
    | .missing => throw .malformed
    | .unknown => throw .malformed
    | .stray _ => throw .malformed

/-- Executes a statement in a scope, over a table of operators. -/
def executeWith (ops : Operators) (rounds : Nat) : Nat → Stmt → ScopeId → Machine Completion
  | 0, _, _ => throw .stackOverflow
  | depth + 1, s, scope =>
    match s with
    | .expression inner => do
      let _ ← evaluateWith ops rounds depth inner scope
      return .normal
    | .print inner => do
      print (← evaluateWith ops rounds depth inner scope)
      return .normal
    | .var name none => do
      define scope name.lexeme .nil
      return .normal
    | .var name (some initial) => do
      define scope name.lexeme (← evaluateWith ops rounds depth initial scope)
      return .normal
    | .block body => do
      let inner ← openScope scope
      executeAll (fun s => executeWith ops rounds depth s inner) body
    | .branch condition yes no => do
      if (← evaluateWith ops rounds depth condition scope).truthy then
        executeWith ops rounds depth yes scope
      else
        match no with
        | some no => executeWith ops rounds depth no scope
        | none => return .normal
    | .loop condition body =>
      repeatWhile (evaluateWith ops rounds depth condition scope)
        (executeWith ops rounds depth body scope) rounds
    | .function name params body => do
      declare name params body scope
      return .normal
    | .ret _ none => return .returned .nil
    | .ret _ (some value) => do
      return .returned (← evaluateWith ops rounds depth value scope)
    | .missing => throw .malformed
    | .unknown => throw .malformed
    | .stray _ => throw .malformed

end

/-- Executes the statements of a program in the outermost scope, over a table
of operators. -/
def runProgramWith (ops : Operators) (limits : Limits) : List Stmt → Machine Unit
  | [] => return
  | s :: rest => do
    let _ ← executeWith ops limits.rounds limits.depth s globalScope
    runProgramWith ops limits rest

/-- Evaluates an expression in a scope. -/
abbrev evaluate (rounds depth : Nat) : Expr → ScopeId → Machine Value :=
  evaluateWith .standard rounds depth

/-- Executes a statement in a scope. -/
abbrev execute (rounds depth : Nat) : Stmt → ScopeId → Machine Completion :=
  executeWith .standard rounds depth

/-- Executes the statements of a program in the outermost scope. -/
abbrev runProgram (limits : Limits) : List Stmt → Machine Unit :=
  runProgramWith .standard limits

end Treewalk
