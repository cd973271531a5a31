import Treewalk.Proofs.Grammar.Acceptance
import Treewalk.Session

/-!
# Runs of a session

A session executes a source exactly if it is accepted and no earlier source
was refused since the record was cleared. Otherwise only the record of
errors changes.
-/

namespace Treewalk

/-- Sources without an error. -/
structure Accepts (limits : Limits) (source : String) : Prop where
  scanned : (scan source).errors = #[]
  parsed : (parse limits.depth (scan source).tokens.toList).errors = #[]

/-- The statements of a source. -/
def statementsOf (limits : Limits) (source : String) : List Stmt :=
  (parse limits.depth (scan source).tokens.toList).statements

/-- An accepted source is a program of the grammar. -/
theorem Accepts.program {limits : Limits} {source : String} (h : Accepts limits source) :
    Grammar.Program (programTokens (scan source).tokens.toList) (statementsOf limits source) :=
  program_of_parse h.parsed

/-! ## The record of errors -/

/-- Reporting errors sets the flag, unless there are none. -/
theorem syntaxFailed_reportAll (d : Diagnostics) (errors : Array SyntaxError) :
    (d.reportAll errors).syntaxFailed = (d.syntaxFailed || !errors.isEmpty) := by
  obtain ⟨errors⟩ := errors
  unfold Diagnostics.reportAll
  rw [List.foldl_toArray]
  induction errors generalizing d with
  | nil => simp
  | cons e rest ih => simp [ih, Diagnostics.report]

/-- The text of a report of a runtime error. -/
def Diagnostics.failureText (d : Diagnostics) (message : String) (line : Int) : String :=
  d.paint .red (located message line) ++ "\n"

/-- Running declarations in a row, and then more of them. -/
theorem runProgram_append {limits : Limits} {program : List Stmt} {s state : State}
    (h : runProgram limits program s = .ok () state) (others : List Stmt) :
    runProgram limits (program ++ others) s = runProgram limits others state := by
  have happend : runProgram limits (program ++ others) =
      runProgram limits program >>= fun _ => runProgram limits others := by
    clear h
    induction program with
    | nil => rfl
    | cons x program ih => simp only [List.cons_append, runProgramWith, ih, bind_assoc]
  rw [happend]
  change EStateM.bind (runProgram limits program) _ s = _
  unfold EStateM.bind
  rw [h]

namespace Session

variable {limits : Limits} {source : String} {s : Session}

/-- An accepted source is executed. -/
theorem run_of_accepts (h : Accepts limits source) (hs : s.diagnostics.syntaxFailed = false) :
    s.run limits source = s.execute limits (statementsOf limits source) := by
  have hscan : s.diagnostics.reportAll (scan source).errors = s.diagnostics := by
    rw [h.scanned]
    rfl
  have hparse : s.diagnostics.reportAll
      (parse limits.depth (scan source).tokens.toList).errors = s.diagnostics := by
    rw [h.parsed]
    rfl
  simp only [run, runBy, hscan, hparse, hs]
  rfl

/-- **What a run does to a session**: it executes an accepted source, or it
does nothing but report. -/
theorem run_cases (limits : Limits) (source : String) (s : Session) :
    (Accepts limits source ∧ s.diagnostics.syntaxFailed = false ∧
      s.run limits source = s.execute limits (statementsOf limits source)) ∨
    ∃ d, s.run limits source = (.ok false, { s with diagnostics := d }) := by
  by_cases hflag : ((s.diagnostics.reportAll (scan source).errors).reportAll
      (parse limits.depth (scan source).tokens.toList).errors).syntaxFailed
  · right
    exact ⟨_, by simp only [run, runBy, hflag]; rfl⟩
  · left
    simp only [syntaxFailed_reportAll, Bool.or_eq_true, Bool.not_eq_true', not_or,
      Bool.not_eq_true, Bool.not_eq_false, Array.isEmpty_iff] at hflag
    obtain ⟨⟨hs, hscan⟩, hparse⟩ := hflag
    have haccepts : Accepts limits source := ⟨hscan, hparse⟩
    exact ⟨haccepts, hs, run_of_accepts haccepts hs⟩

/-- A run that answers that all went well has executed its source to the
end, and has changed nothing but the state. -/
theorem run_true (h : (s.run limits source).1 = .ok true) :
    Accepts limits source ∧ s.diagnostics.syntaxFailed = false ∧
      ∃ state, runProgram limits (statementsOf limits source) s.state = .ok () state ∧
        (s.run limits source).2 = { s with state := state } := by
  rcases run_cases limits source s with ⟨haccepts, hflag, hrun⟩ | ⟨d, hrun⟩
  · refine ⟨haccepts, hflag, ?_⟩
    rw [hrun, execute] at h
    rw [hrun, execute]
    generalize runProgram limits (statementsOf limits source) s.state = r at h
    cases r with
    | ok _ state => exact ⟨state, rfl, rfl⟩
    | error stop state =>
      -- every stop sets a flag or leaves the session
      cases stop <;> cases h
  · rw [hrun] at h
    cases h

end Session

end Treewalk
