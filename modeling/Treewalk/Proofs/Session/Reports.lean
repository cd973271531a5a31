import Treewalk.Proofs.Evaluation.Realm
import Treewalk.Proofs.Session.Runs

/-!
# What a run reports

A run reports the errors of its source: those of the scanner, then those of
the reader. If there are none, and none is on record, it hands the statements
to execution (`executes_iff`), and at most one more report says how that
failed. The reports of a run determine all that it writes and every flag it
sets, and a run that does not execute changes nothing else.
-/

namespace Treewalk

open Machine

/-- One report of a run. -/
inductive Report where
  | syntaxError (e : SyntaxError)
  | runtimeError (e : RuntimeError)
  | stackOverflow

namespace Report

/-- What is wrong, without the place. -/
def message : Report → String
  | syntaxError e => e.message
  | runtimeError e => e.message
  | stackOverflow => "Stack overflow."

/-- How the report reads. -/
def text : Report → String
  | syntaxError e => e.text
  | runtimeError e => e.text
  | stackOverflow => "Stack overflow."

/-- The report of a reason to stop. A tree that is no program and a loop
without end are not the business of a session. -/
def ofStop? : Stop → Option Report
  | .error e => some (runtimeError e)
  | .stackOverflow => some stackOverflow
  | .malformed => none
  | .endless => none

/-- The report of how an execution ended. -/
def ofEnd? {α : Type} : EStateM.Result Stop State α → Option Report
  | .ok _ _ => none
  | .error stop _ => ofStop? stop

theorem isSome_ofEnd? {α : Type} {r : EStateM.Result Stop State α} :
    (ofEnd? r).isSome = true ↔
      ∃ stop state, r = .error stop state ∧ (stop = .stackOverflow ∨ ∃ e, stop = .error e) := by
  cases r with
  | ok => simp [ofEnd?]
  | error stop state => cases stop <;> simp [ofEnd?, ofStop?]

end Report

/-! ## The record of errors -/

namespace Diagnostics

/-- The lines that reports are written as. -/
def lines (d : Diagnostics) (reports : List Report) : String :=
  String.join (reports.map fun r => d.paint .red r.text ++ "\n")

/-- The record with an execution's failure on it, if there was one. -/
def afterEnd (d : Diagnostics) (failure : Option Report) : Diagnostics :=
  { d with
    runFailed := d.runFailed || failure.isSome
    written := d.written ++ d.lines failure.toList }

@[simp] theorem lines_nil (d : Diagnostics) : d.lines [] = "" := String.join_nil

theorem lines_cons (d : Diagnostics) (r : Report) (rs : List Report) :
    d.lines (r :: rs) = d.lines [r] ++ d.lines rs := by
  simp [lines, String.join_cons]

/-- Of a record, only how it paints shows in reports. -/
theorem lines_congr {d d' : Diagnostics} (h : d'.colored = d.colored)
    (hpainter : d'.painter = d.painter) : d'.lines = d.lines := by
  funext rs
  simp only [lines, paint, h, hpainter]

@[simp] theorem afterEnd_none (d : Diagnostics) : d.afterEnd none = d := by
  simp [afterEnd]

/-- What reporting errors does to the record. -/
theorem reportAll_eq (d : Diagnostics) (errors : Array SyntaxError) :
    d.reportAll errors = { d with
      syntaxFailed := d.syntaxFailed || !errors.isEmpty
      written := d.written ++ d.lines (errors.toList.map .syntaxError) } := by
  obtain ⟨errors⟩ := errors
  unfold reportAll
  rw [List.foldl_toArray]
  induction errors generalizing d with
  | nil => simp
  | cons e rest ih =>
    have hline : (d.report e).written = d.written ++ d.lines [.syntaxError e] := by
      simp [report, writeLine, lines, Report.text, String.join_cons, String.append_assoc]
    have hpaint : (d.report e).lines = d.lines := lines_congr rfl rfl
    rw [List.foldl_cons, ih, hline, hpaint, String.append_assoc, ← d.lines_cons]
    simp [report, writeLine]

/-- A runtime error goes on record. -/
theorem settle_error (d : Diagnostics) (e : RuntimeError) :
    Session.settle d (.error e) = .ok (d.afterEnd (some (.runtimeError e))) := by
  simp [Session.settle, absorb?, reportRuntime, reportFailure, writeLine, afterEnd, lines,
    Report.text, RuntimeError.text, String.join_cons, String.append_assoc]

/-- So does a stack overflow. -/
theorem settle_stackOverflow (d : Diagnostics) :
    Session.settle d .stackOverflow = .ok (d.afterEnd (some .stackOverflow)) := by
  simp [Session.settle, absorb?, reportFailure, writeLine, afterEnd, lines, Report.text,
    String.join_cons, String.append_assoc]

end Diagnostics

/-! ## Sources -/

instance (limits : Limits) (source : String) : Decidable (Accepts limits source) :=
  decidable_of_iff ((scan source).errors = #[] ∧
      (parse limits.depth (scan source).tokens.toList).errors = #[])
    ⟨fun h => ⟨h.1, h.2⟩, fun h => ⟨h.scanned, h.parsed⟩⟩

/-- The errors of a source: those of the scanner, then those of the reader. -/
def sourceErrors (limits : Limits) (source : String) : Array SyntaxError :=
  (scan source).errors ++ (parse limits.depth (scan source).tokens.toList).errors

theorem accepts_iff_sourceErrors {limits : Limits} {source : String} :
    Accepts limits source ↔ sourceErrors limits source = #[] := by
  rw [sourceErrors, Array.append_eq_empty_iff]
  exact ⟨fun h => ⟨h.scanned, h.parsed⟩, fun h => ⟨h.1, h.2⟩⟩

theorem isEmpty_sourceErrors (limits : Limits) (source : String) :
    (sourceErrors limits source).isEmpty = decide (Accepts limits source) := by
  rw [Bool.eq_iff_iff, Array.isEmpty_iff, decide_eq_true_iff, accepts_iff_sourceErrors]

/-- Reporting the errors of a source sets the flag, unless it is accepted. -/
theorem syntaxFailed_sourceErrors (d : Diagnostics) (limits : Limits) (source : String) :
    (d.reportAll (sourceErrors limits source)).syntaxFailed =
      (d.syntaxFailed || !decide (Accepts limits source)) := by
  rw [syntaxFailed_reportAll, isEmpty_sourceErrors]

namespace Session

variable {limits : Limits} {source : String} {s : Session}

/-! ## Execution -/

/-- A run hands the statements of its source to execution, whatever execution
is, and does nothing else. -/
def Executes (limits : Limits) (s : Session) (source : String) : Prop :=
  ∀ exec, s.runBy exec limits source = exec s (statementsOf limits source)

/-- **The two ways a run can go.** -/
theorem runBy_eq (exec : Session → List Stmt → Except Escape Bool × Session) (limits : Limits)
    (s : Session) (source : String) :
    s.runBy exec limits source =
      if s.diagnostics.syntaxFailed = false ∧ Accepts limits source then
        exec s (statementsOf limits source)
      else
        (.ok false,
          { s with diagnostics := s.diagnostics.reportAll (sourceErrors limits source) }) := by
  have hboth : (s.diagnostics.reportAll (scan source).errors).reportAll
      (parse limits.depth (scan source).tokens.toList).errors =
        s.diagnostics.reportAll (sourceErrors limits source) := Array.foldl_append.symm
  simp only [runBy, hboth]
  by_cases haccepts : Accepts limits source
  · have hsame : s.diagnostics.reportAll (sourceErrors limits source) = s.diagnostics := by
      rw [accepts_iff_sourceErrors.1 haccepts]
      rfl
    simp only [hsame, haccepts, and_true]
    cases s.diagnostics.syntaxFailed <;> rfl
  · have hflag : (s.diagnostics.reportAll (sourceErrors limits source)).syntaxFailed = true := by
      rw [syntaxFailed_sourceErrors]
      simp [haccepts]
    simp only [hflag, haccepts, and_false]
    rfl

/-- **A run executes** if its source is accepted and the flag for errors in
sources is not set, and in no other case. -/
theorem executes_iff :
    s.Executes limits source ↔ s.diagnostics.syntaxFailed = false ∧ Accepts limits source := by
  constructor
  · intro h
    -- an execution whose answer no other way of running gives
    have hanswer := h fun s _ => (.ok true, s)
    rw [runBy_eq] at hanswer
    split at hanswer
    · assumption
    · cases hanswer
  · intro h exec
    rw [runBy_eq, if_pos h]

theorem run_of_executes (h : s.Executes limits source) :
    s.run limits source = s.execute limits (statementsOf limits source) :=
  h (execute limits)

theorem run_of_not_executes (h : ¬ s.Executes limits source) :
    s.run limits source = (.ok false,
      { s with diagnostics := s.diagnostics.reportAll (sourceErrors limits source) }) := by
  rw [run, runBy_eq, if_neg (mt executes_iff.2 h)]

instance : Decidable (s.Executes limits source) := decidable_of_iff _ executes_iff.symm

/-- How the execution of a source fails, if it is executed. -/
def failure? (limits : Limits) (s : Session) (source : String) : Option Report :=
  if s.Executes limits source then
    Report.ofEnd? (runProgram limits (statementsOf limits source) s.state)
  else none

theorem isSome_failure? : (s.failure? limits source).isSome = true ↔ s.Executes limits source ∧
    (Report.ofEnd? (runProgram limits (statementsOf limits source) s.state)).isSome = true := by
  unfold failure?
  split <;> simp [*]

/-- All that a run reports. -/
def reports (limits : Limits) (s : Session) (source : String) : List Report :=
  (sourceErrors limits source).toList.map .syntaxError ++ (s.failure? limits source).toList

/-- What executing statements does to a session. -/
theorem execute_snd (limits : Limits) (s : Session) (program : List Stmt) :
    (s.execute limits program).2 =
      { s with
        state := final (runProgram limits program s.state)
        diagnostics := s.diagnostics.afterEnd
          (Report.ofEnd? (runProgram limits program s.state)) } := by
  unfold execute
  cases runProgram limits program s.state with
  | ok _ state => simp [final, Report.ofEnd?]
  | error stop state =>
    cases stop with
    | error e => simp only [Diagnostics.settle_error, final, Report.ofEnd?, Report.ofStop?]
    | stackOverflow =>
      simp only [Diagnostics.settle_stackOverflow, final, Report.ofEnd?, Report.ofStop?]
    | malformed | endless => simp [final, Report.ofEnd?, Report.ofStop?, settle]

/-- An execution that answers says whether a failure is on record. -/
theorem answer_execute {program : List Stmt} {answer : Bool}
    (h : (s.execute limits program).1 = .ok answer) :
    answer = !(s.execute limits program).2.diagnostics.runFailed := by
  unfold execute at h ⊢
  cases hrun : runProgram limits program s.state with
  | ok _ state =>
    rw [hrun] at h
    exact (Except.ok.inj h).symm
  | error stop state =>
    rw [hrun] at h
    cases hsettle : settle s.diagnostics stop with
    | ok d =>
      simp only [hsettle] at h ⊢
      exact (Except.ok.inj h).symm
    | error escape =>
      simp only [hsettle] at h
      cases h

/-- **What a run does to a session.** -/
theorem run_snd (limits : Limits) (s : Session) (source : String) :
    (s.run limits source).2 =
      { s with
        state := if s.Executes limits source then
          final (runProgram limits (statementsOf limits source) s.state) else s.state
        diagnostics := { s.diagnostics with
          syntaxFailed := s.diagnostics.syntaxFailed || !decide (Accepts limits source)
          runFailed := s.diagnostics.runFailed || (s.failure? limits source).isSome
          written :=
            s.diagnostics.written ++ s.diagnostics.lines (s.reports limits source) } } := by
  by_cases h : s.Executes limits source
  · obtain ⟨hflag, haccepts⟩ := executes_iff.1 h
    have hnone := accepts_iff_sourceErrors.1 haccepts
    rw [run_of_executes h, execute_snd]
    simp [failure?, reports, h, haccepts, hnone, Diagnostics.afterEnd]
  · rw [run_of_not_executes h, Diagnostics.reportAll_eq, isEmpty_sourceErrors]
    simp [failure?, reports, h]

/-- What a run writes are its reports. -/
theorem errorOutput_run (limits : Limits) (s : Session) (source : String) :
    (s.run limits source).2.errorOutput =
      s.errorOutput ++ s.diagnostics.lines (s.reports limits source) := by
  rw [run_snd]
  rfl

end Session

end Treewalk
