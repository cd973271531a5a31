import Treewalk.Token

/-!
# Syntax errors

A lexical or grammatical error: the line it was found on, where on the
line, and what is wrong. Two errors count as equal when they read the same.
-/

namespace Treewalk

/-- An error in a source text. `place` is empty, or says at which lexeme or
that it was at the end. -/
structure SyntaxError where
  line : Int
  message : String
  place : String := ""
  deriving DecidableEq, Repr

namespace SyntaxError

/-- How the error reads. -/
def text (e : SyntaxError) : String :=
  "[line " ++ toString e.line ++ "] Error" ++ e.place ++ ": " ++ e.message

/-- Whether two errors read the same. -/
def same (a b : SyntaxError) : Bool := a.text == b.text

/-- An error at a token: at the end for the mark at the end of input, and
at the lexeme for all others. -/
def atToken (t : Token) (message : String) : SyntaxError where
  line := t.line
  message := message
  place := if t.kind = .endOfInput then " at end" else " at '" ++ t.lexeme ++ "'"

end SyntaxError

end Treewalk
