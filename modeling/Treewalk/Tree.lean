import Treewalk.Token

/-!
# Syntax trees

Expressions and statements. Trees that a program is read into are well
formed; a tree from elsewhere may have a hole where a part is required, a
part of no known form, or a statement in the place of an expression and the
reverse. Such trees can be written down here too, so that dumping and
running them can say what happens when the bad part is reached.
-/

namespace Treewalk

mutual

/-- Expressions. -/
inductive Expr where
  | literal (value : Value)
  /-- An expression in parentheses. -/
  | grouping (inner : Expr)
  | unary (operator : Token) (right : Expr)
  | binary (left : Expr) (operator : Token) (right : Expr)
  /-- A connective, which may leave its right side alone. -/
  | logical (left : Expr) (operator : Token) (right : Expr)
  /-- The value of a variable. -/
  | name (token : Token)
  | assign (name : Token) (value : Expr)
  /-- A call. The closing parenthesis tells where it is. -/
  | call (callee : Expr) (paren : Token) (arguments : List Expr)
  /-- A hole. -/
  | missing
  /-- An expression of no known form. -/
  | unknown
  /-- A statement in the place of an expression. -/
  | stray (statement : Stmt)

/-- Statements. -/
inductive Stmt where
  /-- An expression evaluated for its effect. -/
  | expression (inner : Expr)
  | print (inner : Expr)
  | var (name : Token) (initial : Option Expr)
  | block (body : List Stmt)
  | branch (condition : Expr) (yes : Stmt) (no : Option Stmt)
  | loop (condition : Expr) (body : Stmt)
  | function (name : Token) (params : List Token) (body : List Stmt)
  | ret (keyword : Token) (value : Option Expr)
  /-- A hole. -/
  | missing
  /-- A statement of no known form. -/
  | unknown
  /-- An expression in the place of a statement. -/
  | stray (expression : Expr)

end

instance : Inhabited Expr := ⟨.missing⟩

instance : Inhabited Stmt := ⟨.missing⟩

namespace Stmt

/-- A `for` loop, made of the other statements: the step runs after the
body in a block of its own with it, an absent condition is true, and the
initial statement shares a block with the loop. -/
def forLoop (initial : Option Stmt) (condition step : Option Expr) (body : Stmt) : Stmt :=
  let body := match step with
    | some step => block [body, expression step]
    | none => body
  let loop := loop (condition.getD (.literal (.bool true))) body
  match initial with
  | some initial => block [initial, loop]
  | none => loop

end Stmt

end Treewalk
