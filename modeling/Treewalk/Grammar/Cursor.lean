import Treewalk.Grammar.Fault
import Treewalk.Tree

/-!
# Reading tokens

A cursor stands in front of the tokens still to be read. Reading ends at the
mark for the end of input: every step that looks at the next token asks
first whether it is the mark, and no step moves past it. A cursor collects
the faults found so far and knows how many function bodies it is inside. A
reading either yields a result or is abandoned, and both leave a cursor
behind.
-/

namespace Treewalk

/-- A place in a token list, with what was found up to it. -/
structure Cursor where
  ahead : List Token
  faults : Array Fault := #[]
  /-- How many function bodies are open around this place. -/
  openFunctions : Nat := 0

/-- Why the reading of a declaration is abandoned. -/
inductive Abandoned where
  /-- A fault was noted that cannot be read past. -/
  | fault
  /-- The nesting exceeds the allowed depth. -/
  | tooDeep
  deriving DecidableEq, Repr

/-- A step that moves a cursor, and may abandon the declaration. -/
abbrev Reading := EStateM Abandoned Cursor

namespace Cursor

/-- The kind of the next token, if any is left. -/
def kind? (c : Cursor) : Option Kind := c.ahead.head?.map (·.kind)

/-- Whether the mark at the end of input comes next, or no token is left. -/
def atEnd (c : Cursor) : Bool := c.ahead.head?.all (·.kind == .endOfInput)

/-- Notes a fault at a token with `rest` behind it. -/
def noteAt (c : Cursor) (t : Token) (rest : List Token) (cause : GrammarFault) : Cursor :=
  { c with faults := c.faults.push ⟨rest.length + 1, some t, cause⟩ }

/-- Notes a fault at the next token. -/
def note (c : Cursor) (cause : GrammarFault) : Cursor :=
  match c.ahead with
  | t :: rest => c.noteAt t rest cause
  | [] => { c with faults := c.faults.push ⟨0, none, cause⟩ }

/-- The kinds of tokens that start a statement. -/
def boundaries : List Kind :=
  [.kwClass, .kwFun, .kwVar, .kwFor, .kwIf, .kwWhile, .kwPrint, .kwReturn]

/-- The tokens from the next statement boundary on: behind a semicolon, in
front of a token that starts a statement, or at the end of input. `last` was
read just before. -/
def settle (last : Token) : List Token → List Token
  | [] => []
  | t :: rest =>
    if t.kind = .endOfInput || last.kind = .semicolon || boundaries.contains t.kind then t :: rest
    else settle t rest

/-- Drops the next token and goes on to the next statement boundary. -/
def skipToBoundary (c : Cursor) : Cursor :=
  match c.ahead with
  | [] => c
  | t :: rest => if c.atEnd then c else { c with ahead := settle t rest }

end Cursor

namespace Reading

variable {α : Type}

/-- Whether the next token is of a given kind. -/
def sees (kind : Kind) : Reading Bool := fun c => .ok (!c.atEnd && c.kind? == some kind) c

/-- Reads the next token if it is of one of the given kinds. -/
def accept (kinds : List Kind) : Reading (Option Token) := fun c =>
  match c.ahead with
  | t :: rest =>
    if !c.atEnd && kinds.contains t.kind then .ok (some t) { c with ahead := rest }
    else .ok none c
  | [] => .ok none c

/-- Reads the next token if it is of a given kind, and says so. -/
def take (kind : Kind) : Reading Bool := do return (← accept [kind]).isSome

/-- Notes a fault at the next token and goes on. -/
def note (cause : GrammarFault) : Reading Unit := fun c => .ok () (c.note cause)

/-- Notes a fault at the next token and abandons the declaration. -/
def refuse (cause : GrammarFault) : Reading α := fun c => .error .fault (c.note cause)

/-- Reads a token that has to be of a given kind. -/
def expect (kind : Kind) (cause : GrammarFault) : Reading Token := do
  match ← accept [kind] with
  | some t => return t
  | none => refuse cause

/-- Reads inside one more function body. -/
def withinFunction (body : Reading α) : Reading α := fun c =>
  match body { c with openFunctions := c.openFunctions + 1 } with
  | .ok a c => .ok a { c with openFunctions := c.openFunctions - 1 }
  | .error e c => .error e { c with openFunctions := c.openFunctions - 1 }

/-- Reads a list separated by commas. An item past the allowed number is
noted and read all the same. `room` bounds the length of the list, and
`count` items have been read before. -/
def separated (item : Reading α) (tooMany : GrammarFault) : Nat → Nat → Reading (List α)
  | 0, _ => return []
  | room + 1, count => do
    if maxArguments ≤ count then note tooMany
    let first ← item
    if ← take .comma then
      return first :: (← separated item tooMany room (count + 1))
    else
      return [first]

/-- Reads a list that a closing parenthesis ends, the parenthesis not
included. -/
def listed (item : Reading α) (tooMany : GrammarFault) (room : Nat) : Reading (List α) := do
  if ← sees .rightParen then return [] else separated item tooMany room 0

end Reading

end Treewalk
