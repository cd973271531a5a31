import Treewalk.Number
import Treewalk.Text.Quoted

/-!
# Values

The values a program computes with. A function value is a label for code
together with the scope it was declared in: its number names the entry of
the code table that holds its statements, and two function values are the
same exactly when their numbers are. A native function has a number too,
and no statements.
-/

namespace Treewalk

/-- The number of a scope, counted from 0 in order of creation. -/
abbrev ScopeId := Nat

/-- A callable value. -/
inductive Function where
  /-- A declared function with its parameter names and the scope that was
  active at its declaration. -/
  | closure (id : Nat) (name : String) (params : List String) (scope : ScopeId)
  /-- A function provided by the machine. -/
  | native (id : Nat) (name : String) (arity : Nat)
  deriving DecidableEq, Repr

namespace Function

/-- The number that tells this function from all others. -/
def id : Function → Nat
  | closure id .. => id
  | native id .. => id

/-- How many arguments a call must give. -/
def arity : Function → Nat
  | closure _ _ params _ => params.length
  | native _ _ arity => arity

/-- What printing a function shows. -/
def text : Function → String
  | closure _ name _ _ => "<fn " ++ name ++ ">"
  | native .. => "<native fn>"

/-- A description that names the kind of function, its name and its arity. -/
def description (f : Function) : String :=
  let inside (name : String) := "(" ++ Text.quoted name ++ ", arity=" ++ toString f.arity ++ ")"
  match f with
  | closure _ name _ _ => "LoxFunction" ++ inside name
  | native _ name _ => "NativeFunction" ++ inside name

end Function

/-- The values of the language. -/
inductive Value where
  | nil
  | bool (b : Bool)
  | number (x : Float)
  | string (s : String)
  | function (f : Function)
  deriving Repr

namespace Value

instance : Inhabited Value := ⟨nil⟩

/-- Only `nil` and `false` count as false. -/
def truthy : Value → Bool
  | nil => false
  | bool b => b
  | _ => true

/-- Equality of the language: values of different types differ, numbers
compare as machine numbers (so the undefined number differs from itself),
and functions compare by their number. -/
def equals : Value → Value → Bool
  | nil, nil => true
  | bool a, bool b => a == b
  | number x, number y => x == y
  | string s, string t => s == t
  | function f, function g => f.id == g.id
  | _, _ => false

/-- What printing a value shows. -/
def text : Value → String
  | nil => "nil"
  | bool true => "true"
  | bool false => "false"
  | number x => Number.plain x
  | string s => s
  | function f => f.text

end Value

end Treewalk
