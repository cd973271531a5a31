import Treewalk.Scope.Store
import Treewalk.Tree

/-!
# The machine

What a running program can change: the scopes, the code of the functions
declared so far, the text printed so far, and how often the clock was read.
A step either yields a result or stops the run; in both cases the state
reached so far stays.
-/

namespace Treewalk

/-- The readings a clock will give, in seconds since 1970, and how many
have been taken. -/
structure Clock where
  reading : Nat → Float
  taken : Nat := 0

/-- The state of a running program. -/
structure State where
  store : Store
  /-- The body of the function with each number. -/
  code : Array (List Stmt)
  output : String
  clock : Clock

/-- Why a run stops before its end. -/
inductive Stop where
  | error (e : RuntimeError)
  /-- The nesting of evaluation exceeds the allowed depth. -/
  | stackOverflow
  /-- A part of the tree was reached that is no program. -/
  | malformed
  /-- A loop has gone round more often than allowed. -/
  | endless

/-- A step of a run. -/
abbrev Machine := EStateM Stop State

/-- How a statement completes. -/
inductive Completion where
  | normal
  /-- A `return` was executed and its value is on the way to the caller. -/
  | returned (v : Value)

/-- The outermost scope. -/
def globalScope : ScopeId := 0

namespace State

/-- Numbers a new function with the given body. -/
def newFunction (s : State) (name : String) (params : List String) (body : List Stmt)
    (scope : ScopeId) : Function × State :=
  (.closure s.code.size name params scope, { s with code := s.code.push body })

/-- Numbers a new native function. -/
def newNative (s : State) (name : String) (arity : Nat) : Function × State :=
  (.native s.code.size name arity, { s with code := s.code.push [] })

/-- The body of the function with a given number. -/
def body (s : State) (id : Nat) : List Stmt := (s.code[id]?).getD []

/-- The number of the native function that reads the clock. -/
def clockId : Nat := 0

/-- The state before the first run: nothing is bound but the clock, which is
the first function to be numbered. -/
def initial (reading : Nat → Float) : State where
  store := (Store.create {} none).define globalScope "clock" (.function (.native clockId "clock" 0))
  code := #[[]]
  output := ""
  clock := { reading := reading }

/-- The bindings of the outermost scope, in the order of their names. -/
def globals (s : State) : List (String × Value) :=
  ((s.store.scope? globalScope).map (·.sorted)).getD []

/-- Adds to the printed text. -/
def write (s : State) (text : String) : State := { s with output := s.output ++ text }

end State

namespace Machine

variable {α : Type}

/-- Continues with a result, or stops with a runtime error. -/
def ofExcept : Except RuntimeError α → Machine α
  | .ok a => pure a
  | .error e => throw (.error e)

/-- Creates a scope inside `parent` and yields its number. -/
def openScope (parent : ScopeId) : Machine ScopeId := fun s =>
  .ok s.store.scopes.size { s with store := s.store.create (some parent) }

/-- Binds a name in a scope. -/
def define (scope : ScopeId) (name : String) (v : Value) : Machine Unit := fun s =>
  .ok () { s with store := s.store.define scope name v }

/-- Binds names to values in a scope, from left to right. -/
def defineAll (scope : ScopeId) : List (String × Value) → Machine Unit
  | [] => return
  | (name, v) :: rest => do
    define scope name v
    defineAll scope rest

/-- The value of a variable. -/
def read (scope : ScopeId) (name : Token) : Machine Value := fun s =>
  match s.store.read scope name with
  | .ok v => .ok v s
  | .error e => .error (.error e) s

/-- Rebinds a variable. -/
def assign (scope : ScopeId) (name : Token) (v : Value) : Machine Unit := fun s =>
  match s.store.ownerOf scope name with
  | .ok owner => .ok () { s with store := s.store.define owner name.lexeme v }
  | .error e => .error (.error e) s

/-- Prints a value on a line of its own. -/
def print (v : Value) : Machine Unit := fun s => .ok () (s.write (v.text ++ "\n"))

/-- Declares a function in a scope. -/
def declare (name : Token) (params : List Token) (body : List Stmt) (scope : ScopeId) :
    Machine Unit := fun s =>
  let (f, s) := s.newFunction name.lexeme (params.map (·.lexeme)) body scope
  define scope name.lexeme (.function f) s

/-- The body of the function with a given number. -/
def bodyOf (id : Nat) : Machine (List Stmt) := fun s => .ok (s.body id) s

/-- Reads the clock. -/
def readClock : Machine Float := fun s =>
  .ok (s.clock.reading s.clock.taken) { s with clock := { s.clock with taken := s.clock.taken + 1 } }

/-- Runs the native function with a given number: the clock gives its next
reading, and any other gives `nil`. -/
def native (id : Nat) : Machine Value :=
  if id = State.clockId then .number <$> readClock else pure .nil

end Machine

end Treewalk
