import Std.Time.DateTime.Timestamp
import Treewalk.CommandLine

/-!
# The program

Reads the arguments, opens the script or the prompt, and writes what the
library computes, with reports painted for a terminal. The clock is read once
before each run and stands still during it.
-/

namespace Treewalk

open CommandLine

/-- The time in seconds since 1970. -/
def secondsNow : IO Float := do
  let now ← Std.Time.Timestamp.now
  return Float.ofInt now.toNanosecondsSinceUnixEpoch.val / 1000000000

/-- The contents of a file, if it can be opened. -/
def openFile? (path : String) : IO (Option ByteArray) := do
  try
    return some (← IO.FS.readBinFile path)
  catch _ =>
    return none

/-- Writes printed text and error text. -/
def emit (out err : String) : IO Unit := do
  let stdout ← IO.getStdout
  stdout.putStr out
  stdout.flush
  (← IO.getStderr).putStr err

/-- The exit code of an ending. -/
def codeOf : Ending → UInt32
  | .done code => code.toUInt32
  | .settled code => code.toUInt32
  | .scriptFailed code _ => code.toUInt32
  | .escaped _ => 1

/-- Does what a request asks for, with the script at `path` if there is
one. -/
def performOn (request : Request) (path? : Option String) : IO UInt32 := do
  let now ← secondsNow
  let bytes? ← match path? with
    | some path => openFile? path
    | none => pure none
  let outcome := perform {} (fun _ => now) (fun _ => bytes?) "" request Painter.terminal
  emit outcome.out outcome.err
  return codeOf outcome.ending

/-- Takes lines from the standard input until one asks to stop. -/
partial def converseOnConsole (p : Prompt) : IO UInt32 := do
  emit p.mark ""
  let line ← (← IO.getStdin).getLine
  let line := if line.isEmpty then Prompt.Command.close.word else line
  let now ← secondsNow
  let state := { p.session.state with clock := { reading := fun _ => now } }
  let (stop, p) := { p with session.state := state }.enter {} line
  emit p.session.output p.session.errorOutput
  if stop then return 0 else converseOnConsole { p with session := p.session.drained }

end Treewalk

open Treewalk CommandLine in
/-- The entry point. -/
def main (arguments : List String) : IO UInt32 := do
  match request arguments with
  | .prompt colored =>
    emit (Prompt.greeting ++ "\n") ""
    converseOnConsole { session := .start colored (fun _ => 0) Painter.terminal }
  | .run path colored => performOn (.run path colored) (some path)
  | .dump view path colored => performOn (.dump view path colored) (some path)
  | other => performOn other none
