import Treewalk.Token.Segment
import Treewalk.SyntaxError

/-!
# Tokens of a source text

Scanning walks over the segments of a source text and counts lines. A token
and an error both carry the line on which their segment ends. Errors never
stop the walk, and the tokens always end in one mark for the end of input.
-/

namespace Treewalk

/-- Why a segment is an error. -/
inductive LexicalFault where
  | unexpectedCharacter
  | unterminatedString
  deriving DecidableEq, Repr

/-- How a lexical error is worded. -/
def LexicalFault.message : LexicalFault → String
  | unexpectedCharacter => "Unexpected character."
  | unterminatedString => "Unterminated string."

namespace Segment

/-- The value that a lexeme of a given kind denotes. -/
def literal (kind : Kind) (lexeme : List Char) : Value :=
  match kind with
  | .string => .string (String.ofList (lexeme.drop 1).dropLast)
  | .number =>
    let whole := lexeme.takeWhile Number.isDigit
    let fraction := (lexeme.dropWhile Number.isDigit).drop 1
    .number (Decimal.ofDigits whole fraction).toFloat
  | _ => .nil

/-- The token of a segment that ends on `line`. -/
def token? (line : Nat) : Segment → Option Token
  | token kind lexeme => some ⟨kind, String.ofList lexeme, literal kind lexeme, line⟩
  | _ => none

/-- What is wrong with a segment. -/
def fault? : Segment → Option LexicalFault
  | unexpected _ => some .unexpectedCharacter
  | unterminated _ => some .unterminatedString
  | _ => none

end Segment

/-- What scanning has found so far, and the line it has reached. -/
structure Scan where
  line : Nat := 1
  tokens : Array Token := #[]
  errors : Array SyntaxError := #[]

namespace Scan

/-- Takes one more segment into account. -/
def add (s : Scan) (segment : Segment) : Scan :=
  let line := s.line + segment.newlines
  { line := line
    tokens := match segment.token? line with
      | some t => s.tokens.push t
      | none => s.tokens
    errors := match segment.fault? with
      | some f => s.errors.push ⟨line, f.message, ""⟩
      | none => s.errors }

/-- Adds the mark for the end of input. -/
def finish (s : Scan) : Scan :=
  { s with tokens := s.tokens.push ⟨.endOfInput, "", .nil, s.line⟩ }

end Scan

/-- Scans a source text. -/
def scan (source : String) : Scan :=
  ((Segment.cut source).foldl Scan.add {}).finish

end Treewalk
