import Treewalk.Grammar.Statement

/-!
# Reading a program

A program is a list of declarations up to the first mark for the end of
input. The reader is given the whole token list; what comes behind that mark
is never looked at.
-/

namespace Treewalk

/-- The statements that could be read, and what was wrong with the rest. -/
structure Parsed where
  statements : List Stmt
  faults : Array Fault

/-- The faults as errors, in the order they were found. -/
def Parsed.errors (p : Parsed) : Array SyntaxError := p.faults.map (·.error)

/-- Reads a program from a token list, nested at most `depth` deep. -/
def parse (depth : Nat) (tokens : List Token) : Parsed :=
  let room := tokens.length
  let (statements, c) :=
    Reading.declarations Cursor.atEnd (Reading.declaration room depth) room [] { ahead := tokens }
  ⟨statements, c.faults⟩

end Treewalk
