import Treewalk.Diagnostics
import Treewalk.Evaluation
import Treewalk.Grammar.Program
import Treewalk.Text.Source
import Treewalk.Token.Scan

/-!
# Sessions

A session runs sources one after the other over the same globals. A source
with an error is not executed, and while the flag for such errors is set no
source is. A failed run ends where it failed; what it printed and bound
stays. The exit code says what went wrong since the record was last cleared.
-/

namespace Treewalk

/-- What a session cannot deal with itself. -/
inductive Escape where
  /-- A tree that is no program was run. -/
  | malformed
  /-- A loop went round more often than allowed. -/
  | endless
  /-- A script is not text. -/
  | undecodable
  /-- A tree is nested too deep to be dumped. -/
  | tooDeep
  deriving DecidableEq, Repr

/-- A session. -/
structure Session where
  state : State
  diagnostics : Diagnostics
  /-- Whether a script could not be opened since the last clearing. -/
  unreadable : Bool := false

namespace Session

/-- A session in which nothing has happened yet. -/
def start (colored : Bool) (clock : Nat → Float) (painter : Painter := .terminal) : Session where
  state := .initial clock
  diagnostics := { colored, painter }

/-- Reports how a run stopped. -/
def settle (d : Diagnostics) : Stop → Except Escape Diagnostics
  | .error e => .ok ((d.absorb? (.runtimeError e.message e.line)).getD d)
  | .stackOverflow => .ok ((d.absorb? .stackOverflow).getD d)
  | .malformed => .error .malformed
  | .endless => .error .endless

/-- Executes statements and reports how they ended. The answer is whether
no run has failed since the last clearing. -/
def execute (limits : Limits) (s : Session) (program : List Stmt) : Except Escape Bool × Session :=
  match runProgram limits program s.state with
  | .ok _ state => (.ok !s.diagnostics.runFailed, { s with state := state })
  | .error stop state =>
    match settle s.diagnostics stop with
    | .ok d => (.ok !d.runFailed, { s with state := state, diagnostics := d })
    | .error escape => (.error escape, { s with state := state })

/-- Reports the errors of a source, and leaves its statements to `exec`
unless there is an error on record. -/
def runBy (exec : Session → List Stmt → Except Escape Bool × Session) (limits : Limits)
    (s : Session) (source : String) : Except Escape Bool × Session :=
  let scanned := scan source
  let parsed := parse limits.depth scanned.tokens.toList
  let s := { s with
    diagnostics := (s.diagnostics.reportAll scanned.errors).reportAll parsed.errors }
  if s.diagnostics.syntaxFailed then (.ok false, s) else exec s parsed.statements

/-- Runs a source. The answer is whether all went well since the last
clearing. -/
def run (limits : Limits) (s : Session) (source : String) : Except Escape Bool × Session :=
  s.runBy (execute limits) limits source

/-- The exit code: 66 for a script that could not be opened, 65 for an
error in a source, 70 for a failed run. -/
def exitCode (s : Session) : Nat :=
  if s.unreadable then 66
  else if s.diagnostics.syntaxFailed then 65
  else if s.diagnostics.runFailed then 70
  else 0

/-- The warning for a script that could not be opened. -/
def notOpened (path : String) : String := "'" ++ path ++ "' could not be opened"

/-- Runs the script at a path and gives the exit code. `files` opens
files. -/
def runScript (limits : Limits) (files : String → Option ByteArray) (s : Session) (path : String) :
    Except Escape Nat × Session :=
  match files path with
  | none =>
    let s := { s with diagnostics := s.diagnostics.warn (notOpened path), unreadable := true }
    (.ok s.exitCode, s)
  | some bytes =>
    match Text.decode? bytes with
    | none => (.error .undecodable, s)
    | some source =>
      let (ok, s) := s.run limits source
      (ok.map fun _ => s.exitCode, s)

/-- Forgets what went wrong and keeps the globals. -/
def clear (s : Session) : Session :=
  { s with diagnostics := s.diagnostics.clear, unreadable := false }

/-- Adds to the printed text. -/
def say (s : Session) (text : String) : Session := { s with state := s.state.write text }

/-- The printed text. -/
def output (s : Session) : String := s.state.output

/-- The error text. -/
def errorOutput (s : Session) : String := s.diagnostics.written

/-- The session with both texts taken away. -/
def drained (s : Session) : Session :=
  { s with
    state := { s.state with output := "" }
    diagnostics := { s.diagnostics with written := "" } }

end Session

end Treewalk
