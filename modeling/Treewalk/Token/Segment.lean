import Treewalk.Token

/-!
# Segments of a source text

A source text is a sequence of segments: the lexemes of tokens, and between
them blanks, line ends, comments and what belongs to no token. Each segment
is the longest one that can start where it starts: an operator takes a
following `=` if it has such a form, a string runs to its next quote, a
numeral takes a point only if a digit follows, and a word takes every
letter, digit and underscore. The texts of the segments, joined, are the
source text.
-/

namespace Treewalk

/-- A letter of a word: ASCII, or the underscore. -/
def isLetter (c : Char) : Bool := ('a' ≤ c && c ≤ 'z') || ('A' ≤ c && c ≤ 'Z') || c == '_'

/-- A character that may continue a word. -/
def isWordChar (c : Char) : Bool := isLetter c || Number.isDigit c

/-- A maximal piece of a source text. -/
inductive Segment where
  /-- The lexeme of a token. -/
  | token (kind : Kind) (lexeme : List Char)
  /-- A space, tab or carriage return. -/
  | blank (c : Char)
  | newline
  /-- Two slashes and the rest of the line. -/
  | comment (text : List Char)
  /-- A character that starts no token. -/
  | unexpected (c : Char)
  /-- A quote that is never closed and all that follows it. -/
  | unterminated (text : List Char)
  deriving DecidableEq, Repr

namespace Segment

/-- The part of the source text that a segment covers. -/
def text : Segment → List Char
  | token _ lexeme => lexeme
  | blank c => [c]
  | newline => ['\n']
  | comment text => text
  | unexpected c => [c]
  | unterminated text => text

/-- The line ends that count at a segment: one between tokens, and those
inside a string, closed or not. -/
def newlines : Segment → Nat
  | newline => 1
  | token .string lexeme => lexeme.count '\n'
  | unterminated text => text.count '\n'
  | _ => 0

/-- The kind of a token that is always a single character. -/
def single? : Char → Option Kind
  | '(' => some .leftParen
  | ')' => some .rightParen
  | '\x7b' => some .leftBrace
  | '\x7d' => some .rightBrace
  | ',' => some .comma
  | '.' => some .dot
  | '-' => some .minus
  | '+' => some .plus
  | ';' => some .semicolon
  | '*' => some .star
  | _ => none

/-- The kinds of an operator with and without a following `=`. -/
def paired? : Char → Option (Kind × Kind)
  | '!' => some (.bangEqual, .bang)
  | '=' => some (.equalEqual, .equal)
  | '<' => some (.lessEqual, .less)
  | '>' => some (.greaterEqual, .greater)
  | _ => none

/-- The segment of an operator whose next character decides its kind. -/
def operator (c : Char) (kinds : Kind × Kind) : List Char → Segment × List Char
  | '=' :: rest => (token kinds.1 [c, '='], rest)
  | rest => (token kinds.2 [c], rest)

/-- The segment that starts with a slash: a comment or a division sign. -/
def slash : List Char → Segment × List Char
  | '/' :: rest =>
    (comment ('/' :: '/' :: rest.takeWhile (· != '\n')), rest.dropWhile (· != '\n'))
  | rest => (token .slash ['/'], rest)

/-- The segment that starts with a quote. -/
def quote (rest : List Char) : Segment × List Char :=
  let inside := rest.takeWhile (· != '"')
  match rest.dropWhile (· != '"') with
  | _ :: rest => (token .string ('"' :: inside ++ ['"']), rest)
  | [] => (unterminated ('"' :: inside), [])

/-- The segment of a numeral that starts with the digit `c`. -/
def numeral (c : Char) (rest : List Char) : Segment × List Char :=
  let whole := c :: rest.takeWhile Number.isDigit
  match rest.dropWhile Number.isDigit with
  | '.' :: d :: rest =>
    if Number.isDigit d then
      (token .number (whole ++ '.' :: d :: rest.takeWhile Number.isDigit),
        rest.dropWhile Number.isDigit)
    else (token .number whole, '.' :: d :: rest)
  | rest => (token .number whole, rest)

/-- The segment of a word that starts with the letter `c`. -/
def word (c : Char) (rest : List Char) : Segment × List Char :=
  let lexeme := c :: rest.takeWhile isWordChar
  (token (.ofWord (String.ofList lexeme)) lexeme, rest.dropWhile isWordChar)

/-- The first segment of a text that starts with `c`, and what follows it. -/
def first (c : Char) (rest : List Char) : Segment × List Char :=
  match single? c, paired? c with
  | some kind, _ => (token kind [c], rest)
  | none, some kinds => operator c kinds rest
  | none, none =>
    if c = '/' then slash rest
    else if c = ' ' || c = '\r' || c = '\t' then (blank c, rest)
    else if c = '\n' then (newline, rest)
    else if c = '"' then quote rest
    else if Number.isDigit c then numeral c rest
    else if isLetter c then word c rest
    else (unexpected c, rest)

/-! ## Nothing is lost -/

/-- A segment that starts with `c`, and what follows it, make up `c :: rest`. -/
def Splits (c : Char) (rest : List Char) (cut : Segment × List Char) : Prop :=
  ∃ tail, cut.1.text = c :: tail ∧ tail ++ cut.2 = rest

theorem splits_operator (c : Char) (kinds : Kind × Kind) (rest : List Char) :
    Splits c rest (operator c kinds rest) := by
  unfold operator
  split
  · exact ⟨['='], rfl, rfl⟩
  · exact ⟨[], rfl, rfl⟩

theorem splits_slash (rest : List Char) : Splits '/' rest (slash rest) := by
  unfold slash
  split
  · rename_i tail
    exact ⟨'/' :: tail.takeWhile (· != '\n'), rfl,
      congrArg ('/' :: ·) List.takeWhile_append_dropWhile⟩
  · exact ⟨[], rfl, rfl⟩

theorem splits_quote (rest : List Char) : Splits '"' rest (quote rest) := by
  have hsplit := List.takeWhile_append_dropWhile (p := (· != '"')) (l := rest)
  unfold quote
  split
  · rename_i q tail heq
    have hq := List.head?_dropWhile_not (· != '"') rest
    rw [heq] at hq hsplit
    obtain rfl : q = '"' := by simpa using hq
    exact ⟨rest.takeWhile (· != '"') ++ ['"'], rfl, (List.append_assoc ..).trans hsplit⟩
  · rename_i heq
    rw [heq] at hsplit
    exact ⟨rest.takeWhile (· != '"'), rfl, hsplit⟩

theorem splits_numeral (c : Char) (rest : List Char) : Splits c rest (numeral c rest) := by
  have hsplit := List.takeWhile_append_dropWhile (p := Number.isDigit) (l := rest)
  unfold numeral
  split
  · rename_i d tail heq
    rw [heq] at hsplit
    split
    · refine ⟨rest.takeWhile Number.isDigit ++ '.' :: d :: tail.takeWhile Number.isDigit, rfl, ?_⟩
      rw [List.append_assoc, List.cons_append, List.cons_append, List.takeWhile_append_dropWhile]
      exact hsplit
    · exact ⟨rest.takeWhile Number.isDigit, rfl, hsplit⟩
  · exact ⟨rest.takeWhile Number.isDigit, rfl, hsplit⟩

theorem splits_word (c : Char) (rest : List Char) : Splits c rest (word c rest) :=
  ⟨rest.takeWhile isWordChar, rfl, List.takeWhile_append_dropWhile⟩

/-- The first segment starts with the first character, and followed by what
it leaves over it is the whole text. -/
theorem splits_first (c : Char) (rest : List Char) : Splits c rest (first c rest) := by
  unfold first
  split
  · exact ⟨[], rfl, rfl⟩
  · exact splits_operator c _ rest
  · split
    · rename_i hc
      exact hc ▸ splits_slash rest
    split
    · exact ⟨[], rfl, rfl⟩
    split
    · rename_i hc
      exact hc ▸ ⟨[], rfl, rfl⟩
    split
    · rename_i hc
      exact hc ▸ splits_quote rest
    split
    · exact splits_numeral c rest
    split
    · exact splits_word c rest
    · exact ⟨[], rfl, rfl⟩

/-- What the first segment leaves over is no longer than what followed the
first character, so cutting comes to an end. -/
theorem length_first_le (c : Char) (rest : List Char) :
    (first c rest).2.length ≤ rest.length := by
  obtain ⟨tail, -, happend⟩ := splits_first c rest
  have hlength := congrArg List.length happend
  rw [List.length_append] at hlength
  omega

/-! ## Cutting -/

/-- Cuts a text into segments, after those already cut off. -/
def cutFrom (done : Array Segment) : List Char → Array Segment
  | [] => done
  | c :: rest => cutFrom (done.push (first c rest).1) (first c rest).2
termination_by cs => cs.length
decreasing_by exact Nat.lt_succ_of_le (length_first_le c rest)

/-- The segments of a source text, in order. -/
def cut (source : String) : Array Segment := cutFrom #[] source.toList

end Segment

end Treewalk
