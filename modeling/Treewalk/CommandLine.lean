import Treewalk.CommandLine.Arguments
import Treewalk.Prompt
import Treewalk.Tree.Dump

/-!
# The command line

Without a script the prompt is started. With one, the script is run, or its
tokens or its trees are dumped.
-/

namespace Treewalk.CommandLine

/-- The usage line. -/
def usage : String := "usage: lox [-h] [--tokens] [--ast] [--no-color] [file]\n"

/-- The text of the help option. -/
def helpText : String :=
  usage ++ "\n" ++
  "Tree-walking interpreter for the Lox language.\n\n" ++
  "positional arguments:\n" ++
  "  file        script to interpret and run (if empty, goes to interactive mode)\n\n" ++
  "options:\n" ++
  "  -h, --help  show this help message and exit\n" ++
  "  --tokens    print the script's tokens instead of running it\n" ++
  "  --ast       print the script's syntax tree instead of running it\n" ++
  "  --no-color  do not colour error messages\n"

/-- What a dump shows. -/
inductive View where
  | tokens
  | trees
  deriving DecidableEq, Repr

/-- What the arguments ask for. -/
inductive Request where
  | help
  | misuse (message : String)
  | prompt (colored : Bool)
  | run (path : String) (colored : Bool)
  | dump (view : View) (path : String) (colored : Bool)
  deriving DecidableEq, Repr

/-- The request that arguments make. A dump needs a script; of two kinds of
dump the trees win. -/
def request (arguments : List String) : Request :=
  match read arguments with
  | .error .help => .help
  | .error (.misuse message) => .misuse message
  | .ok s =>
    match s.file with
    | none =>
      if s.tokens || s.ast then .misuse "--tokens and --ast need a script file"
      else .prompt s.colored
    | some path =>
      if s.ast then .dump .trees path s.colored
      else if s.tokens then .dump .tokens path s.colored
      else .run path s.colored

/-- How the program ends. -/
inductive Ending where
  /-- It is done, with an exit code. -/
  | done (code : Nat)
  /-- The arguments already settled it, with an exit code. -/
  | settled (code : Nat)
  /-- The script could not be run to its end. -/
  | scriptFailed (code : Nat) (escape : Escape)
  /-- Something escaped. -/
  | escaped (escape : Escape)
  deriving DecidableEq, Repr

/-- What the program printed, and how it ended. -/
structure Outcome where
  out : String := ""
  err : String := ""
  ending : Ending
  deriving DecidableEq, Repr

/-- Dumps trees one to a line, as far as they can be dumped. -/
def dumpAll (depth : Nat) : List Stmt → String → String × Option DumpFault
  | [], done => (done, none)
  | s :: rest, done =>
    match s.dump depth with
    | .ok text => dumpAll depth rest (done ++ text ++ "\n")
    | .error fault => (done, some fault)

/-- Dumps a source. -/
def dumpSource (limits : Limits) (view : View) (d : Diagnostics) (source : String) : Outcome :=
  let scanned := scan source
  let d := d.reportAll scanned.errors
  match view with
  | .tokens =>
    { out := scanned.tokens.foldl (fun out t => out ++ t.text ++ "\n") ""
      err := d.written
      ending := .done (if d.syntaxFailed then 65 else 0) }
  | .trees =>
    let parsed := parse limits.depth scanned.tokens.toList
    let d := d.reportAll parsed.errors
    let (out, fault?) := dumpAll limits.dumpDepth parsed.statements ""
    { out := out
      err := d.written
      ending := match fault? with
        | some .tooDeep => .escaped .tooDeep
        | some .malformed => .escaped .malformed
        | none => .done (if d.syntaxFailed then 65 else 0) }

/-- Dumps the script at a path without running it. -/
def dump (limits : Limits) (files : String → Option ByteArray) (view : View) (path : String)
    (colored : Bool) (painter : Painter) : Outcome :=
  let d : Diagnostics := { colored, painter }
  match files path with
  | none => { err := (d.warn (Session.notOpened path)).written, ending := .done 66 }
  | some bytes =>
    match Text.decode? bytes with
    | none => { ending := .escaped .undecodable }
    | some source => dumpSource limits view d source

/-- Runs the script at a path. -/
def runPath (limits : Limits) (clock : Nat → Float) (files : String → Option ByteArray)
    (path : String) (colored : Bool) (painter : Painter) : Outcome :=
  match (Session.start colored clock painter).runScript limits files path with
  | (result, s) =>
    { out := s.output
      err := s.errorOutput
      ending := match result with
        | .ok code => .done code
        | .error escape => .scriptFailed 70 escape }

/-- Does what a request asks for. `input` is what the prompt is to read. -/
def perform (limits : Limits) (clock : Nat → Float) (files : String → Option ByteArray)
    (input : String) (request : Request) (painter : Painter := .terminal) : Outcome :=
  match request with
  | .help => { out := helpText, ending := .settled 0 }
  | .misuse message => { err := usage ++ "lox: error: " ++ message ++ "\n", ending := .settled 2 }
  | .prompt colored =>
    let p : Prompt := { session := .start colored clock painter }
    let p := p.conduct limits Prompt.greeting input
    { out := p.session.output, err := p.session.errorOutput, ending := .done 0 }
  | .run path colored => runPath limits clock files path colored painter
  | .dump view path colored => dump limits files view path colored painter

end Treewalk.CommandLine
