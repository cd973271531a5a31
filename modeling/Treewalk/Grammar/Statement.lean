import Treewalk.Grammar.Expression

/-!
# Reading statements

Statements and declarations. A declaration that is abandoned yields
nothing; reading goes on at the next statement boundary, so that one source
can show several independent faults. Too deep a nesting is noted by the
innermost declaration around it.
-/

namespace Treewalk

namespace Reading

/-- Reads a declaration, or notes why it was abandoned and moves on. -/
def recovering (declaration : Reading Stmt) (c : Cursor) : Option Stmt × Cursor :=
  match declaration c with
  | .ok s c => (some s, c)
  | .error .fault c => (none, c.skipToBoundary)
  | .error .tooDeep c => (none, (c.note .nestingTooDeep).skipToBoundary)

/-- Reads declarations until `stop`, behind those already read in reverse.
`room` bounds their number. -/
def declarations (stop : Cursor → Bool) (item : Cursor → Option Stmt × Cursor) :
    Nat → List Stmt → Cursor → List Stmt × Cursor
  | 0, done, c => (done.reverse, c)
  | room + 1, done, c =>
    if stop c then (done.reverse, c)
    else
      let (s, c) := item c
      declarations stop item room (s.toList ++ done) c

/-- Reads the declarations of a block behind its opening brace, and the
closing brace. -/
def block (item : Cursor → Option Stmt × Cursor) (room : Nat) : Reading (List Stmt) := do
  let closed (c : Cursor) := c.atEnd || c.kind? == some .rightBrace
  let body ← fun c =>
    let (body, c) := declarations closed item room [] c
    .ok body c
  let _ ← expect .rightBrace .noEndOfBlock
  return body

/-- Reads a function declaration behind its keyword. -/
def functionDeclaration (body : Reading (List Stmt)) (room : Nat) : Reading Stmt := do
  let name ← expect .identifier .noFunctionName
  let _ ← expect .leftParen .noParenAfterFunctionName
  let params ← listed (expect .identifier .noParameterName) .tooManyParameters room
  let _ ← expect .rightParen .noParenAfterParameters
  let _ ← expect .leftBrace .noFunctionBody
  return .function name params (← withinFunction body)

/-- Reads a variable declaration behind its keyword. -/
def varDeclaration (value : Reading Expr) : Reading Stmt := do
  let name ← expect .identifier .noVariableName
  let initial ← if ← take .equal then some <$> value else pure none
  let _ ← expect .semicolon .noEndOfVariable
  return .var name initial

/-- Reads an expression statement. -/
def expressionStatement (value : Reading Expr) : Reading Stmt := do
  let e ← value
  let _ ← expect .semicolon .noEndOfExpression
  return .expression e

/-- Reads an `if` statement behind its keyword. An `else` belongs to the
nearest `if`. -/
def branchStatement (value : Reading Expr) (branch : Reading Stmt) : Reading Stmt := do
  let _ ← expect .leftParen .noParenAfterIf
  let condition ← value
  let _ ← expect .rightParen .noParenAfterIfCondition
  let yes ← branch
  let no ← if ← take .kwElse then some <$> branch else pure none
  return .branch condition yes no

/-- Reads a `while` statement behind its keyword. -/
def loopStatement (value : Reading Expr) (body : Reading Stmt) : Reading Stmt := do
  let _ ← expect .leftParen .noParenAfterWhile
  let condition ← value
  let _ ← expect .rightParen .noParenAfterCondition
  return .loop condition (← body)

/-- Reads the initial clause of a `for` statement with its semicolon. -/
def initialClause (value : Reading Expr) : Reading (Option Stmt) := do
  if ← take .semicolon then return none
  else if ← take .kwVar then return some (← varDeclaration value)
  else return some (← expressionStatement value)

/-- Reads a `for` statement behind its keyword. -/
def forStatement (value : Reading Expr) (body : Reading Stmt) : Reading Stmt := do
  let _ ← expect .leftParen .noParenAfterFor
  let initial ← initialClause value
  let condition ← if ← sees .semicolon then pure none else some <$> value
  let _ ← expect .semicolon .noEndOfLoopCondition
  let step ← if ← sees .rightParen then pure none else some <$> value
  let _ ← expect .rightParen .noParenAfterForClauses
  return .forLoop initial condition step (← body)

/-- Reads a `print` statement behind its keyword. -/
def printStatement (value : Reading Expr) : Reading Stmt := do
  let e ← value
  let _ ← expect .semicolon .noEndOfPrint
  return .print e

/-- Notes a `return` outside all functions at its keyword. -/
def checkReturn (keyword : Token) : Reading Unit := fun c =>
  if c.openFunctions = 0 then .ok () (c.noteAt keyword c.ahead .returnOutsideFunction)
  else .ok () c

/-- Reads a `return` statement behind its keyword. -/
def returnStatement (keyword : Token) (value : Reading Expr) : Reading Stmt := do
  checkReturn keyword
  let e ← if ← sees .semicolon then pure none else some <$> value
  let _ ← expect .semicolon .noEndOfReturn
  return .ret keyword e

/-- The tokens that open a statement other than an expression statement. -/
def statementKinds : List Kind := [.kwIf, .kwWhile, .kwFor, .kwPrint, .kwReturn, .leftBrace]

mutual

/-- Reads a declaration. -/
def declaration (room : Nat) : Nat → Cursor → Option Stmt × Cursor
  | 0, c => recovering (throw .tooDeep) c
  | depth + 1, c => recovering (do
      if ← take .kwFun then
        functionDeclaration (block (declaration room depth) room) room
      else if ← take .kwVar then
        varDeclaration (expression room depth)
      else
        statement room depth) c

/-- Reads a statement. -/
def statement (room : Nat) : Nat → Reading Stmt
  | 0 => throw .tooDeep
  | depth + 1 => do
    match ← accept statementKinds with
    | none => expressionStatement (expression room depth)
    | some t =>
      match t.kind with
      | .kwIf => branchStatement (expression room depth) (statement room depth)
      | .kwWhile => loopStatement (expression room depth) (statement room depth)
      | .kwFor => forStatement (expression room depth) (statement room depth)
      | .kwPrint => printStatement (expression room depth)
      | .kwReturn => returnStatement t (expression room depth)
      | _ => return .block (← block (declaration room depth) room)

end

end Reading

end Treewalk
