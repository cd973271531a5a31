import Treewalk.Value

/-!
# Scopes

A scope binds names to values and may lie inside another scope, its parent.
Binding a name again replaces its value; names are never taken back.
-/

namespace Treewalk

/-- A scope: its bindings in the order the names were first bound, and the
scope around it. -/
structure Scope where
  bindings : List (String × Value) := []
  parent : Option ScopeId := none
  deriving Repr

namespace Scope

/-- The value bound to a name in this very scope. -/
def find? (s : Scope) (name : String) : Option Value := s.bindings.lookup name

/-- Whether this very scope binds a name. -/
def binds (s : Scope) (name : String) : Bool := (s.find? name).isSome

/-- Bindings with one name bound, again or for the first time. -/
def put (name : String) (v : Value) : List (String × Value) → List (String × Value)
  | [] => [(name, v)]
  | (n, w) :: rest => if n == name then (n, v) :: rest else (n, w) :: put name v rest

/-- The scope with a name bound to a value. -/
def define (s : Scope) (name : String) (v : Value) : Scope :=
  { s with bindings := put name v s.bindings }

/-- The bindings in the order of their names. -/
def sorted (s : Scope) : List (String × Value) :=
  s.bindings.mergeSort fun a b => decide (a.1 ≤ b.1)

/-- The bound names, in order. -/
def names (s : Scope) : List String := s.sorted.map (·.1)

end Scope

end Treewalk
