import Treewalk.RuntimeError
import Treewalk.Scope

/-!
# The store of scopes

All scopes of a run, numbered in order of creation. From each scope a chain
of parents leads outward; a name means what the nearest scope of the chain
that binds it says. A parent is always created before its children, so the
chain from scope `i` has at most `i + 1` members.
-/

namespace Treewalk

/-- The scopes created so far. -/
structure Store where
  scopes : Array Scope := #[]
  deriving Repr

namespace Store

/-- The scope with a given number. -/
def scope? (s : Store) (i : ScopeId) : Option Scope := s.scopes[i]?

/-- The first `room` scopes on the way outward from scope `i`. -/
def chainWithin (s : Store) : Nat → ScopeId → List ScopeId
  | 0, _ => []
  | room + 1, i =>
    match s.scope? i with
    | none => []
    | some scope =>
      match scope.parent with
      | none => [i]
      | some p => i :: s.chainWithin room p

/-- The scopes seen from scope `i`, nearest first. -/
def chain (s : Store) (i : ScopeId) : List ScopeId := s.chainWithin (i + 1) i

/-- The number of scopes around scope `i`. -/
def depth (s : Store) (i : ScopeId) : Nat := (s.chain i).length - 1

/-- Whether scope `i` itself binds a name. -/
def bindsAt (s : Store) (name : String) (i : ScopeId) : Bool :=
  ((s.scope? i).map (·.binds name)).getD false

/-- The nearest scope seen from scope `i` that binds a name. -/
def owner? (s : Store) (i : ScopeId) (name : String) : Option ScopeId :=
  (s.chain i).find? (s.bindsAt name)

/-- The value a name has, seen from scope `i`. -/
def get? (s : Store) (i : ScopeId) (name : String) : Option Value := do
  let owner ← s.owner? i name
  let scope ← s.scope? owner
  scope.find? name

/-- Creates a scope inside `parent`; its number is the count of scopes
before. -/
def create (s : Store) (parent : Option ScopeId) : Store :=
  ⟨s.scopes.push { parent := parent }⟩

/-- Binds a name in scope `i` itself. -/
def define (s : Store) (i : ScopeId) (name : String) (v : Value) : Store :=
  ⟨s.scopes.modify i (·.define name v)⟩

/-- The value of the variable a token names, or the error that there is
none. -/
def read (s : Store) (i : ScopeId) (name : Token) : Except RuntimeError Value :=
  match s.get? i name.lexeme with
  | some v => .ok v
  | none => .error ⟨name, .undefinedVariable name.lexeme⟩

/-- The scope that binds the variable a token names, or the error that
there is none. -/
def ownerOf (s : Store) (i : ScopeId) (name : Token) : Except RuntimeError ScopeId :=
  match s.owner? i name.lexeme with
  | some owner => .ok owner
  | none => .error ⟨name, .undefinedVariable name.lexeme⟩

/-- Rebinds the variable a token names in the scope that binds it, or gives
the error that there is none. -/
def write (s : Store) (i : ScopeId) (name : Token) (v : Value) : Except RuntimeError Store :=
  (s.ownerOf i name).map fun owner => s.define owner name.lexeme v

/-- The names bound in scope `i` itself, in order. -/
def names (s : Store) (i : ScopeId) : List String := ((s.scope? i).map (·.names)).getD []

/-- A description of scope `i` by its depth and names. -/
def description (s : Store) (i : ScopeId) : String :=
  "Environment(depth=" ++ toString (s.depth i) ++ ", names=[" ++
    ", ".intercalate ((s.names i).map Text.quoted) ++ "])"

end Store

end Treewalk
