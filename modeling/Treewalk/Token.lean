import Treewalk.Value

/-!
# Tokens

A token is a classified lexeme with the line it ends on. Numerals and
string literals carry the value they denote; all other tokens carry `nil`.
-/

namespace Treewalk

/-- The classes of lexemes. -/
inductive Kind where
  | leftParen | rightParen | leftBrace | rightBrace
  | comma | dot | minus | plus | semicolon | slash | star
  | bang | bangEqual | equal | equalEqual | greater | greaterEqual | less | lessEqual
  | identifier | string | number
  | kwAnd | kwClass | kwElse | kwFalse | kwFun | kwFor | kwIf | kwNil | kwOr | kwPrint
  | kwReturn | kwSuper | kwThis | kwTrue | kwVar | kwWhile
  /-- The mark at the end of every token list. -/
  | endOfInput
  deriving DecidableEq, Repr

namespace Kind

/-- The name of a kind in token listings. -/
def name : Kind → String
  | leftParen => "LEFT_PAREN"
  | rightParen => "RIGHT_PAREN"
  | leftBrace => "LEFT_BRACE"
  | rightBrace => "RIGHT_BRACE"
  | comma => "COMMA"
  | dot => "DOT"
  | minus => "MINUS"
  | plus => "PLUS"
  | semicolon => "SEMICOLON"
  | slash => "SLASH"
  | star => "STAR"
  | bang => "BANG"
  | bangEqual => "BANG_EQUAL"
  | equal => "EQUAL"
  | equalEqual => "EQUAL_EQUAL"
  | greater => "GREATER"
  | greaterEqual => "GREATER_EQUAL"
  | less => "LESS"
  | lessEqual => "LESS_EQUAL"
  | identifier => "IDENTIFIER"
  | string => "STRING"
  | number => "NUMBER"
  | kwAnd => "AND"
  | kwClass => "CLASS"
  | kwElse => "ELSE"
  | kwFalse => "FALSE"
  | kwFun => "FUN"
  | kwFor => "FOR"
  | kwIf => "IF"
  | kwNil => "NIL"
  | kwOr => "OR"
  | kwPrint => "PRINT"
  | kwReturn => "RETURN"
  | kwSuper => "SUPER"
  | kwThis => "THIS"
  | kwTrue => "TRUE"
  | kwVar => "VAR"
  | kwWhile => "WHILE"
  | endOfInput => "EOF"

/-- Every kind, in the order of their declaration. -/
def all : List Kind :=
  [leftParen, rightParen, leftBrace, rightBrace, comma, dot, minus, plus, semicolon, slash, star,
   bang, bangEqual, equal, equalEqual, greater, greaterEqual, less, lessEqual,
   identifier, string, number,
   kwAnd, kwClass, kwElse, kwFalse, kwFun, kwFor, kwIf, kwNil, kwOr, kwPrint,
   kwReturn, kwSuper, kwThis, kwTrue, kwVar, kwWhile, endOfInput]

/-- The kind with a given name. -/
def ofName? (name : String) : Option Kind := all.find? (·.name == name)

/-- The reserved words and their kinds. -/
def keywords : List (String × Kind) :=
  [("and", kwAnd), ("class", kwClass), ("else", kwElse), ("false", kwFalse), ("for", kwFor),
   ("fun", kwFun), ("if", kwIf), ("nil", kwNil), ("or", kwOr), ("print", kwPrint),
   ("return", kwReturn), ("super", kwSuper), ("this", kwThis), ("true", kwTrue), ("var", kwVar),
   ("while", kwWhile)]

/-- The kind of a reserved word. -/
def keyword? (word : String) : Option Kind := keywords.lookup word

/-- The kind of a word: reserved, or else an identifier. -/
def ofWord (word : String) : Kind := (keyword? word).getD identifier

end Kind

/-- A classified lexeme. The line is an integer because tokens need not
come from a source text. -/
structure Token where
  kind : Kind
  lexeme : String
  literal : Value := .nil
  line : Int
  deriving Repr

namespace Token

/-- The line of a token listing: kind, lexeme and literal. -/
def text (t : Token) : String :=
  let literal := match t.literal with
    | .nil => "null"
    | .number x => Number.full x
    | v => v.text
  t.kind.name ++ " " ++ t.lexeme ++ " " ++ literal

end Token

end Treewalk
