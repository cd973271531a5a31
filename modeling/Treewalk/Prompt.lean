import Treewalk.Session
import Treewalk.Text.Blank

/-!
# The prompt

Lines typed at a prompt are collected to entries: while an entry has an
open brace or parenthesis it stays pending, and the next line continues it.
A complete entry is run in the session, and each entry starts with a clean
record. A few words are commands, unless something follows them or an entry
is pending.
-/

namespace Treewalk

/-- The mark in front of a line that starts an entry. -/
def Prompt.firstMark : String := "> "

/-- The mark in front of a line that continues one. -/
def Prompt.nextMark : String := ". "

/-- A session at the prompt, with the text of the unfinished entry and the
mark in front of the next line. -/
structure Prompt where
  session : Session
  pending : String := ""
  mark : String := Prompt.firstMark

namespace Prompt

/-- What greets at the start. -/
def greeting : String :=
  "Lox interpreter :: Python backend\nType 'help' for more information, 'exit' to leave."

/-- What the help command shows. -/
def helpText : String :=
  "Welcome to the Lox interpreter!\n\n" ++
  "Lox is a small, dynamically typed scripting language with C-like syntax, \n" ++
  "closures, and first-class functions.\n\n" ++
  "Try it out by typing 'var greeting = \"hello\";' and then 'print greeting;'. \n" ++
  "Entries with unclosed braces continue on the next line.\n"

/-- Adds to the printed text. -/
def say (p : Prompt) (text : String) : Prompt := { p with session := p.session.say text }

/-- Whether a source has more opening than closing braces, or more opening
than closing parentheses, among its tokens. -/
def isUnfinished (source : String) : Bool :=
  let kinds := (scan source).tokens.map (·.kind)
  kinds.count .rightBrace < kinds.count .leftBrace ||
    kinds.count .rightParen < kinds.count .leftParen

/-- Adds a line to the pending entry and runs it if it is complete. -/
def submit (limits : Limits) (p : Prompt) (line : String) : Prompt :=
  let source := p.pending ++ line ++ "\n"
  if isUnfinished source then { p with pending := source, mark := nextMark }
  else ⟨(p.session.run limits source).2.clear, "", firstMark⟩

/-- The words that may be commands. -/
inductive Command where
  | help
  | exit
  /-- The end of the input. -/
  | close
  deriving DecidableEq, Repr

/-- How a command is spelled. -/
def Command.word : Command → String
  | help => "help"
  | exit => "exit"
  | close => "EOF"

/-- The command a word stands for. -/
def Command.ofWord? (word : String) : Option Command :=
  [help, exit, close].find? (·.word == word)

/-- Obeys a command word with the text behind it. A word that something
follows is no command but a line to submit; so are `help` and `exit` while
an entry is pending. The flag asks to stop. -/
def obey (limits : Limits) (p : Prompt) (command : Command) (argument : String) : Bool × Prompt :=
  let line := command.word ++ " " ++ argument
  match command with
  | .help =>
    if argument.isEmpty && p.pending.isEmpty then (false, p.say helpText)
    else (false, p.submit limits line)
  | .exit =>
    if argument.isEmpty && p.pending.isEmpty then (true, p)
    else (false, p.submit limits line)
  | .close =>
    if argument.isEmpty then (true, p.say "\n")
    else (false, p.submit limits line)

/-- Takes a trimmed line that is not blank: a command word with its
argument, or a line to submit. -/
def interpret (limits : Limits) (p : Prompt) (line : List Char) : Bool × Prompt :=
  let word := String.ofList (line.takeWhile isWordChar)
  let argument := String.ofList (Text.trim (line.dropWhile isWordChar))
  match Command.ofWord? word with
  | some command => p.obey limits command argument
  | none => (false, p.submit limits (String.ofList line))

/-- Takes a line. Blanks around it do not count, and a blank line does
nothing. A leading question mark asks for help, and a leading exclamation
mark keeps the line from being a command. -/
def enter (limits : Limits) (p : Prompt) (line : String) : Bool × Prompt :=
  match Text.trim line.toList with
  | [] => (false, p)
  | '?' :: rest => p.interpret limits ("help ".toList ++ rest)
  | '!' :: rest => (false, p.submit limits (String.ofList ('!' :: rest)))
  | line => p.interpret limits line

/-- The lines of an input, without their line ends. -/
def linesOf (input : String) : List String :=
  let lines := input.splitOn "\n"
  if lines.getLast? = some "" then lines.dropLast else lines

/-- Takes lines, each behind the mark, until one asks to stop; the end of
the lines does so too. -/
def converse (limits : Limits) : List String → Prompt → Prompt
  | [], p => ((p.say p.mark).enter limits Command.close.word).2
  | line :: rest, p =>
    match (p.say p.mark).enter limits line with
    | (true, p) => p
    | (false, p) => converse limits rest p

/-- Greets, unless the greeting is empty, and takes the lines of an
input. -/
def conduct (limits : Limits) (p : Prompt) (greeting input : String) : Prompt :=
  let p := if greeting.isEmpty then p else p.say (greeting ++ "\n")
  converse limits (linesOf input) p

end Prompt

end Treewalk
