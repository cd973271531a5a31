import Treewalk.Proofs.Evaluation.Depth
import Treewalk.Proofs.Session.Reports

/-!
# The allowed depth of a session

How deep reading and running may nest decides whether a run gets through,
and nothing else. A reader that runs out of depth always reports it, and so
does an execution; a run without such a report is the same run at every
greater depth. And whatever a run prints, it prints with more depth too.
-/

namespace Treewalk

open Machine

/-- Where no error says that the nesting is too deep, the depth does not
matter. -/
theorem parse_of_le {depth depth' : ℕ} (hle : depth ≤ depth') {tokens : List Token}
    (h : ∀ e ∈ (parse depth tokens).errors, e.message ≠ "Expression nesting too deep.") :
    parse depth' tokens = parse depth tokens := by
  have hshallow : ¬ Reading.Overrun (Reading.readAll depth tokens).2 := by
    rintro ⟨x, hx, hcause⟩
    refine h x.error (Array.mem_map_of_mem (Array.mem_toList_iff.1 hx)) ?_
    change x.cause.message = _
    rw [hcause]
    rfl
  rw [parse_eq, parse_eq, Reading.readAll_of_le hle hshallow]

namespace Session

variable {limits : Limits} {deeper : ℕ} {source : String} {s : Session}

/-- A source without an error is read alike at every greater depth. -/
theorem executes_deeper (hle : limits.depth ≤ deeper) (h : s.Executes limits source) :
    s.Executes { limits with depth := deeper } source ∧
      statementsOf { limits with depth := deeper } source = statementsOf limits source := by
  obtain ⟨hflag, haccepts⟩ := executes_iff.1 h
  have hparse : parse deeper (scan source).tokens.toList =
      parse limits.depth (scan source).tokens.toList := by
    refine parse_of_le hle fun e he => ?_
    rw [haccepts.parsed] at he
    exact absurd he (Array.not_mem_empty e)
  have haccepts' : Accepts { limits with depth := deeper } source :=
    ⟨haccepts.scanned, by rw [hparse, haccepts.parsed]⟩
  exact ⟨executes_iff.2 ⟨hflag, haccepts'⟩, congrArg Parsed.statements hparse⟩

/-- **A run that does not tell of its depth** is the same run at every
greater depth. -/
theorem run_deeper (hle : limits.depth ≤ deeper)
    (h : ∀ r ∈ s.reports limits source,
      r.message ≠ "Expression nesting too deep." ∧ r.message ≠ "Stack overflow.") :
    s.run { limits with depth := deeper } source = s.run limits source := by
  have hparse : parse deeper (scan source).tokens.toList =
      parse limits.depth (scan source).tokens.toList := by
    refine parse_of_le hle fun e he => (h (.syntaxError e) ?_).1
    exact List.mem_append_left _ (List.mem_map_of_mem
      (Array.mem_toList_iff.2 (Array.mem_append_right _ he)))
  have herrors : sourceErrors { limits with depth := deeper } source =
      sourceErrors limits source := by
    simp only [sourceErrors, hparse]
  by_cases hexecutes : s.Executes limits source
  · obtain ⟨hdeeper, hstatements⟩ := executes_deeper hle hexecutes
    -- an overflow would be on the list of reports
    have hfits : ¬ Overflows (runProgram limits (statementsOf limits source) s.state) := by
      rintro ⟨state, hstate⟩
      have hfailure : s.failure? limits source = some .stackOverflow := by
        rw [failure?, if_pos hexecutes, hstate]
        rfl
      refine (h .stackOverflow ?_).2 rfl
      rw [reports, hfailure]
      exact List.mem_append_right _ (List.mem_singleton_self _)
    have hrun := (cut_runProgram limits hle (statementsOf limits source)).eq hfits
    rw [run_of_executes hexecutes, run_of_executes hdeeper, hstatements, execute, execute, hrun]
  · have hrefused : ¬ s.Executes { limits with depth := deeper } source := by
      rwa [executes_iff, accepts_iff_sourceErrors, herrors, ← accepts_iff_sourceErrors,
        ← executes_iff]
    rw [run_of_not_executes hexecutes, run_of_not_executes hrefused, herrors]

/-- A run takes nothing back that has been printed. -/
theorem later_run (limits : Limits) (s : Session) (source : String) :
    Later s.state (s.run limits source).2.state := by
  rw [run_snd]
  dsimp only
  split
  · exact ((cut_runProgram limits (Nat.le_refl _) _).adds s.state).later
  · exact Later.refl _

/-- **What a run prints**, it prints at every greater depth. -/
theorem later_run_deeper (hle : limits.depth ≤ deeper) (s : Session) (source : String) :
    Later (s.run limits source).2.state
      (s.run { limits with depth := deeper } source).2.state := by
  by_cases hexecutes : s.Executes limits source
  · obtain ⟨hdeeper, hstatements⟩ := executes_deeper hle hexecutes
    rw [run_of_executes hexecutes, run_of_executes hdeeper, hstatements, execute_snd, execute_snd]
    exact ((cut_runProgram limits hle (statementsOf limits source)).run s.state).later
  · rw [run_of_not_executes hexecutes]
    exact later_run _ s source

end Session

open Session

/-- **The allowed depth can only cut a run short.** In any session, compare a
run of a source with a run at a greater depth. If none of the reports that
the first one writes says that the nesting is too deep or that the stack
overflows, then both runs give the same answer and leave the same session
behind. And in every case, what the first one has printed in the end is where
the text of the other one starts. -/
theorem depth_only_cuts (limits : Limits) {deeper : ℕ} (hle : limits.depth ≤ deeper)
    (s : Session) (source : String) :
    (s.run limits source).2.errorOutput =
        s.errorOutput ++ s.diagnostics.lines (s.reports limits source) ∧
      ((∀ r ∈ s.reports limits source,
          r.message ≠ "Expression nesting too deep." ∧ r.message ≠ "Stack overflow.") →
        s.run { limits with depth := deeper } source = s.run limits source) ∧
      ∃ text, (s.run { limits with depth := deeper } source).2.output =
        (s.run limits source).2.output ++ text :=
  ⟨errorOutput_run limits s source, run_deeper hle, later_run_deeper hle s source⟩

/-- A source that calls itself without end, and prints each time. -/
def descending : String := "fun f() \x7b print nil; f(); \x7d f();"

/-- With more depth, the calls get further before the stack overflows; a
source that gets through is not affected. -/
theorem descending_cut :
    let s := Session.start false fun _ => 0
    (s.run ⟨12, 8⟩ descending).2.errorOutput = "Stack overflow.\n" ∧
      (s.run ⟨12, 8⟩ descending).2.output = "nil\nnil\nnil\nnil\nnil\n" ∧
      (∃ text, (s.run ⟨14, 8⟩ descending).2.output =
        (s.run ⟨12, 8⟩ descending).2.output ++ text) ∧
      (s.run ⟨12, 8⟩ "print nil;").2.output = "nil\n" ∧
      s.run ⟨14, 8⟩ "print nil;" = s.run ⟨12, 8⟩ "print nil;" := by
  intro s
  have hle : (⟨12, 8⟩ : Limits).depth ≤ 14 := by decide
  have hreports : s.reports ⟨12, 8⟩ "print nil;" = [] := by cbv
  obtain ⟨-, -, hlater⟩ := depth_only_cuts ⟨12, 8⟩ hle s descending
  obtain ⟨-, hsame, -⟩ := depth_only_cuts ⟨12, 8⟩ hle s "print nil;"
  refine ⟨by cbv, by cbv, hlater, by cbv, hsame fun r hr => ?_⟩
  rw [hreports] at hr
  cases hr

end Treewalk
