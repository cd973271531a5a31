import Treewalk.Painter
import Treewalk.RuntimeError
import Treewalk.SyntaxError

/-!
# Diagnostics

The error text written so far, and two flags that remember whether a source
had errors and whether a run failed. The flags last until they are cleared.
Reports may be painted; the line end that closes a report never is.
-/

namespace Treewalk

/-- The state of error reporting. -/
structure Diagnostics where
  colored : Bool
  painter : Painter := .terminal
  /-- Whether a source had an error since the last clearing. -/
  syntaxFailed : Bool := false
  /-- Whether a run failed since the last clearing. -/
  runFailed : Bool := false
  written : String := ""

/-- How work under the eye of the diagnostics ended before its end. -/
inductive Interruption where
  | runtimeError (message : String) (line : Int)
  | stackOverflow
  | keyboard
  /-- A failure of the machinery itself. -/
  | internal
  deriving DecidableEq, Repr

namespace Diagnostics

/-- A text painted in a colour, if colours are on. -/
def paint (d : Diagnostics) (color : Color) (text : String) : String :=
  if d.colored then d.painter color text else text

/-- Writes a line. -/
def writeLine (d : Diagnostics) (text : String) : Diagnostics :=
  { d with written := d.written ++ text ++ "\n" }

/-- Reports an error in a source. -/
def report (d : Diagnostics) (e : SyntaxError) : Diagnostics :=
  { d.writeLine (d.paint .red e.text) with syntaxFailed := true }

/-- Reports errors in a source, in order. -/
def reportAll (d : Diagnostics) (errors : Array SyntaxError) : Diagnostics :=
  errors.foldl report d

/-- Reports a failed run. -/
def reportFailure (d : Diagnostics) (text : String) : Diagnostics :=
  { d.writeLine (d.paint .red text) with runFailed := true }

/-- Reports a runtime error. -/
def reportRuntime (d : Diagnostics) (message : String) (line : Int) : Diagnostics :=
  d.reportFailure (located message line)

/-- Writes a warning. Only the word that says so is painted. -/
def warn (d : Diagnostics) (message : String) : Diagnostics :=
  d.writeLine (d.paint .magenta "warning: " ++ message)

/-- Forgets earlier failures. -/
def clear (d : Diagnostics) : Diagnostics := { d with syntaxFailed := false, runFailed := false }

/-- Reports an interruption; `none` for one that is not its business. -/
def absorb? (d : Diagnostics) : Interruption → Option Diagnostics
  | .runtimeError message line => some (d.reportRuntime message line)
  | .stackOverflow => some (d.reportFailure "Stack overflow.")
  | .keyboard => some { d.warn "keyboard interrupt" with runFailed := true }
  | .internal => none

end Diagnostics

end Treewalk
