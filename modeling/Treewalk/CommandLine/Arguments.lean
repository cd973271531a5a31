import Treewalk.Text.Digit
import Treewalk.Text.Quoted

/-!
# Command line arguments

Arguments are sorted into kinds first, all of them, and acted on from left
to right afterwards. An option may be shortened as long as it stays clear
which one is meant; no option takes a value. Two dashes end the options.
The first plain argument names the script, and what is left over is
refused.
-/

namespace Treewalk.CommandLine

/-- The options. -/
inductive Flag where
  | help
  | tokens
  | ast
  | noColor
  deriving DecidableEq, Repr

namespace Flag

/-- Every option, in the order in which they are listed. -/
def all : List Flag := [help, tokens, ast, noColor]

/-- The long spelling of an option. -/
def long : Flag → String
  | help => "--help"
  | tokens => "--tokens"
  | ast => "--ast"
  | noColor => "--no-color"

/-- How messages name an option. -/
def label : Flag → String
  | help => "-h/--help"
  | flag => flag.long

end Flag

/-- An argument, sorted by kind. -/
inductive Piece where
  /-- An argument that is no option. -/
  | plain (text : String)
  /-- The two dashes that end the options. -/
  | divider
  /-- A long option, perhaps with a value it does not take. -/
  | long (flag : Flag) (value : Option String)
  /-- The short form of help, with what was written directly behind it. -/
  | short (behind : List Char)
  /-- Something that looks like an option and is none. -/
  | unknown (text : String)
  deriving DecidableEq, Repr

/-- A text cut at its first equals sign, if it has one. -/
def cutValue (cs : List Char) : List Char × Option String :=
  match cs.dropWhile (· != '=') with
  | _ :: value => (cs.takeWhile (· != '='), some (String.ofList value))
  | [] => (cs, none)

/-- Whether a text reads as a negative number: a dash and digits, perhaps
with a point in front of or between the digits. A final line end does not
count. -/
def isNegativeNumber (cs : List Char) : Bool :=
  let cs := if cs.getLast? = some '\n' then cs.dropLast else cs
  match cs with
  | '-' :: rest =>
    let digits (cs : List Char) := !cs.isEmpty && cs.all Text.isDecimalDigit
    match rest.dropWhile Text.isDecimalDigit with
    | '.' :: fraction => digits fraction
    | _ => digits rest
  | _ => false

/-- Sorts an argument that starts with a dash and has more behind it. -/
def sortDashed (text : String) : Except String Piece :=
  let cs := text.toList
  let (name, value) := cutValue cs
  let other : Piece := if isNegativeNumber cs || cs.contains ' ' then .plain text else .unknown text
  match cs with
  | '-' :: '-' :: _ =>
    match Flag.all.filter fun flag => name.isPrefixOf flag.long.toList with
    | [] => .ok other
    | [flag] => .ok (.long flag value)
    | flags =>
      .error ("ambiguous option: " ++ text ++ " could match " ++
        ", ".intercalate (flags.map (·.long)))
  | '-' :: 'h' :: behind => .ok (.short behind)
  | _ => .ok other

/-- Sorts an argument that comes before any divider. -/
def sort (text : String) : Except String Piece :=
  if text.toList.head? ≠ some '-' || text = "-" then .ok (.plain text)
  else sortDashed text

/-- Sorts arguments up to the first divider; behind it all are plain. -/
def sortAll : List String → Except String (List Piece)
  | [] => .ok []
  | text :: rest =>
    if text = "--" then .ok (.divider :: rest.map .plain)
    else do
      let piece ← sort text
      return piece :: (← sortAll rest)

/-- What the arguments ask for, as far as they have been read. -/
structure Settings where
  file : Option String := none
  tokens : Bool := false
  ast : Bool := false
  colored : Bool := true
  /-- What nothing was found to take. -/
  extras : List String := []
  deriving DecidableEq, Repr

/-- Why reading the arguments ends early. -/
inductive Early where
  | help
  | misuse (message : String)
  deriving DecidableEq, Repr

/-- The message for a value that an option does not take. -/
def ignored (flag : Flag) (value : String) : Early :=
  .misuse ("argument " ++ flag.label ++ ": ignored explicit argument " ++ Text.quoted value)

/-- Acts on what was written directly behind the short form of help: it may
repeat its letter, and what looks like a value or another dash is refused.
Letters that stand for no option come too late, since help comes first. -/
def behindHelp : List Char → Early
  | 'h' :: rest => behindHelp rest
  | '=' :: value => ignored .help (String.ofList value)
  | '-' :: rest => ignored .help (String.ofList ('-' :: rest))
  | _ => .help

/-- Acts on a piece. -/
def act (s : Settings) : Piece → Except Early Settings
  | .plain text =>
    .ok (if s.file.isNone then { s with file := some text }
      else { s with extras := s.extras ++ [text] })
  | .divider => .ok (if s.file.isNone then s else { s with extras := s.extras ++ ["--"] })
  | .unknown text => .ok { s with extras := s.extras ++ [text] }
  | .short behind => .error (behindHelp behind)
  | .long flag (some value) => .error (ignored flag value)
  | .long .help none => .error .help
  | .long .tokens none => .ok { s with tokens := true }
  | .long .ast none => .ok { s with ast := true }
  | .long .noColor none => .ok { s with colored := false }

/-- Acts on pieces from left to right. The argument that names the script
takes a divider right behind it along. -/
def actAll : List Piece → Settings → Except Early Settings
  | [], s => .ok s
  | .plain text :: .divider :: rest, s =>
    if s.file.isNone then do actAll rest (← act s (.plain text))
    else do actAll rest (← act (← act s (.plain text)) .divider)
  | piece :: rest, s => do actAll rest (← act s piece)

/-- Reads the arguments. -/
def read (arguments : List String) : Except Early Settings := do
  let pieces ← (sortAll arguments).mapError .misuse
  let s ← actAll pieces {}
  if s.extras.isEmpty then return s
  else throw (.misuse ("unrecognized arguments: " ++ " ".intercalate s.extras))

end Treewalk.CommandLine
