import Treewalk.Proofs.Session.Reports
import Treewalk.Proofs.Session.Safety
import Mathlib.Data.List.DropRight

/-!
# Histories of a session

A session is used by calls: to run a source, to run a script, to clear the
record. Whatever calls were made, in whatever order, the flags and the exit
code say exactly what happened since the record was last cleared, and these
calls alone decide whether the next source is executed. One lemma for each
flag says what a call does to it; the rest is one induction on the history,
from its last call backwards.
-/

namespace Treewalk

namespace Session

/-- What a session can be called to do. -/
inductive Call where
  | run (limits : Limits) (source : String)
  | runScript (limits : Limits) (files : String → Option ByteArray) (path : String)
  | clear

namespace Call

/-- The session that a call leaves behind. -/
def perform (s : Session) : Call → Session
  | run limits source => (s.run limits source).2
  | runScript limits files path => (s.runScript limits files path).2
  | clear => s.clear

/-- Whether a call clears the record. -/
def isClear : Call → Bool
  | clear => true
  | _ => false

/-- The source that a call runs, with the bounds it is given. There is none
in a script that cannot be opened or is not text. -/
def source? : Call → Option (Limits × String)
  | run limits source => some (limits, source)
  | runScript limits files path =>
    ((files path).bind Text.decode?).map fun source => (limits, source)
  | clear => none

/-- Whether a call cannot open its script. -/
def unopened : Call → Bool
  | runScript _ files path => (files path).isNone
  | _ => false

/-- A call runs a source that has an error. -/
def Faulty (c : Call) : Prop :=
  ∃ limits source, c.source? = some (limits, source) ∧ ¬ Accepts limits source

/-- A call runs a source that is executed and fails: with a runtime error, or
for want of room. -/
def FailsIn (s : Session) (c : Call) : Prop :=
  ∃ limits source, c.source? = some (limits, source) ∧ s.Executes limits source ∧
    ∃ stop state, runProgram limits (statementsOf limits source) s.state = .error stop state ∧
      (stop = .stackOverflow ∨ ∃ e, stop = .error e)

/-! ## Single calls -/

/-- **What a call can do**: clear the record, run a source, or note at most
that a script could not be opened. -/
theorem perform_cases (s : Session) (c : Call) :
    c = .clear ∨
    (∃ limits source, c.source? = some (limits, source) ∧ c.isClear = false ∧
      c.unopened = false ∧ c.perform s = (s.run limits source).2) ∨
    c.source? = none ∧ c.isClear = false ∧ ∃ written, c.perform s =
      { s with
        diagnostics := { s.diagnostics with written := written }
        unreadable := s.unreadable || c.unopened } := by
  cases c with
  | clear => exact .inl rfl
  | run limits source => exact .inr (.inl ⟨limits, source, rfl, rfl, rfl, rfl⟩)
  | runScript limits files path =>
    right
    cases hfile : files path with
    | none =>
      right
      simp [source?, isClear, unopened, perform, Session.runScript, hfile, Diagnostics.warn,
        Diagnostics.writeLine]
    | some bytes =>
      cases hsource : Text.decode? bytes with
      | none =>
        right
        refine ⟨by simp [source?, hfile, hsource], rfl, s.diagnostics.written, ?_⟩
        simp [unopened, perform, Session.runScript, hfile, hsource]
      | some source =>
        left
        refine ⟨limits, source, by simp [source?, hfile, hsource], rfl, ?_⟩
        simp [unopened, perform, Session.runScript, hfile, hsource]

section

variable (s : Session) (c : Call)

theorem FailsIn.isClear {s : Session} {c : Call} (h : c.FailsIn s) : c.isClear = false := by
  obtain ⟨_, _, hsource, -⟩ := h
  cases c with
  | clear => cases hsource
  | run | runScript => rfl

/-- A call that runs a source does just that. -/
theorem perform_of_source? {c : Call} {limits : Limits} {source : String}
    (h : c.source? = some (limits, source)) : c.perform s = (s.run limits source).2 := by
  rcases perform_cases s c with rfl | ⟨_, _, hsource, -, -, hperform⟩ | ⟨hnone, -⟩
  · cases h
  · cases h.symm.trans hsource
    exact hperform
  · cases h.symm.trans hnone

/-- The flag for errors in sources after a call. -/
theorem syntaxFailed_perform : (c.perform s).diagnostics.syntaxFailed = true ↔
    c.isClear = false ∧ (s.diagnostics.syntaxFailed = true ∨ c.Faulty) := by
  rcases perform_cases s c with
    rfl | ⟨_, _, hsource, hclear, -, hperform⟩ | ⟨hnone, hclear, _, hperform⟩
  · simp [perform, Session.clear, Diagnostics.clear, isClear]
  · simp [hperform, run_snd, hclear, Faulty, hsource]
  · simp [hperform, hclear, Faulty, hnone]

/-- The flag for failed runs after a call. -/
theorem runFailed_perform : (c.perform s).diagnostics.runFailed = true ↔
    c.isClear = false ∧ (s.diagnostics.runFailed = true ∨ c.FailsIn s) := by
  rcases perform_cases s c with
    rfl | ⟨_, _, hsource, hclear, -, hperform⟩ | ⟨hnone, hclear, _, hperform⟩
  · simp [perform, Session.clear, Diagnostics.clear, isClear]
  · simp [hperform, run_snd, hclear, FailsIn, hsource, isSome_failure?, Report.isSome_ofEnd?]
  · simp [hperform, hclear, FailsIn, hnone]

/-- The note of a script that could not be opened after a call. -/
theorem unreadable_perform :
    (c.perform s).unreadable = (!c.isClear && (s.unreadable || c.unopened)) := by
  rcases perform_cases s c with
    rfl | ⟨_, _, -, hclear, hopened, hperform⟩ | ⟨-, hclear, _, hperform⟩
  · rfl
  · simp [hperform, run_snd, hclear, hopened]
  · simp [hperform, hclear]

end

end Call

/-! ## Sequences of calls -/

/-- The session after calls, made one after the other. -/
def after (s : Session) (calls : List Call) : Session := calls.foldl Call.perform s

/-- The calls since the record was last cleared. -/
def sinceClear (calls : List Call) : List Call := calls.rtakeWhile fun c => !c.isClear

/-- A run since the record was last cleared has been executed and has
failed. -/
def FailedSinceClear (s : Session) (calls : List Call) : Prop :=
  ∃ earlier c later, calls = earlier ++ c :: later ∧ (∀ d ∈ later, d.isClear = false) ∧
    c.FailsIn (s.after earlier)

variable {s : Session} {calls : List Call}

theorem after_concat (s : Session) (calls : List Call) (c : Call) :
    s.after (calls ++ [c]) = c.perform (s.after calls) := by
  simp [after]

theorem exists_sinceClear_concat (P : Call → Prop) (calls : List Call) (c : Call) :
    (∃ d ∈ sinceClear (calls ++ [c]), P d) ↔
      c.isClear = false ∧ ((∃ d ∈ sinceClear calls, P d) ∨ P c) := by
  rw [sinceClear, List.rtakeWhile_concat]
  cases hc : c.isClear with
  | true => simp
  | false => simp [sinceClear, or_and_right, exists_or]

theorem failedSinceClear_concat (s : Session) (calls : List Call) (c : Call) :
    s.FailedSinceClear (calls ++ [c]) ↔
      c.isClear = false ∧ (s.FailedSinceClear calls ∨ c.FailsIn (s.after calls)) := by
  constructor
  · rintro ⟨earlier, d, later, hcalls, hlater, hfails⟩
    -- the failed run is the last call, or there are calls behind it
    rcases List.eq_nil_or_concat later with rfl | ⟨later, e, rfl⟩
    · obtain ⟨rfl, hd⟩ := List.append_inj' hcalls rfl
      obtain rfl := List.singleton_inj.1 hd
      exact ⟨hfails.isClear, .inr hfails⟩
    · rw [List.concat_eq_append] at hcalls hlater
      rw [← List.cons_append, ← List.append_assoc] at hcalls
      obtain ⟨rfl, he⟩ := List.append_inj' hcalls rfl
      obtain rfl := List.singleton_inj.1 he
      obtain ⟨hlater, hclear⟩ := List.forall_mem_append.1 hlater
      exact ⟨hclear c List.mem_cons_self, .inl ⟨earlier, d, later, rfl, hlater, hfails⟩⟩
  · rintro ⟨hclear, ⟨earlier, d, later, rfl, hlater, hfails⟩ | hfails⟩
    · refine ⟨earlier, d, later ++ [c], by simp, ?_, hfails⟩
      exact List.forall_mem_append.2 ⟨hlater, List.forall_mem_singleton.2 hclear⟩
    · exact ⟨calls, c, [], rfl, nofun, hfails⟩

/-- **The flag for errors in sources** tells of the sources since the record
was last cleared. -/
theorem syntaxFailed_after (hs : s.diagnostics.syntaxFailed = false) (calls : List Call) :
    (s.after calls).diagnostics.syntaxFailed = true ↔ ∃ c ∈ sinceClear calls, c.Faulty := by
  induction calls using List.reverseRecOn with
  | nil => simp [after, sinceClear, hs]
  | append_singleton calls c ih =>
    rw [after_concat, Call.syntaxFailed_perform, ih, exists_sinceClear_concat]

/-- **The flag for failed runs** tells of the runs since the record was last
cleared. -/
theorem runFailed_after (hs : s.diagnostics.runFailed = false) (calls : List Call) :
    (s.after calls).diagnostics.runFailed = true ↔ s.FailedSinceClear calls := by
  induction calls using List.reverseRecOn with
  | nil => simp [after, FailedSinceClear, hs]
  | append_singleton calls c ih =>
    rw [after_concat, Call.runFailed_perform, ih, failedSinceClear_concat]

theorem unreadable_after (hs : s.unreadable = false) (calls : List Call) :
    (s.after calls).unreadable = (sinceClear calls).any Call.unopened := by
  induction calls using List.reverseRecOn with
  | nil => simp [after, sinceClear, hs]
  | append_singleton calls c ih =>
    rw [after_concat, Call.unreadable_perform, ih, sinceClear, sinceClear, List.rtakeWhile_concat]
    cases c.isClear <;> simp

/-- Sessions after calls can come up. -/
theorem Reachable.after (h : s.Reachable) (calls : List Call) : (s.after calls).Reachable := by
  induction calls using List.reverseRecOn with
  | nil => exact h
  | append_singleton calls c ih =>
    rw [after_concat]
    cases c with
    | run limits source => exact .run limits source ih
    | runScript limits files path => exact .runScript limits files path ih
    | clear => exact .clear ih

/-! ## The next run -/

variable {limits : Limits} {source : String}

/-- A run that answers says whether anything is on record. -/
theorem answer_run {answer : Bool} (h : (s.run limits source).1 = .ok answer) :
    answer = true ↔ (s.run limits source).2.diagnostics.syntaxFailed = false ∧
      (s.run limits source).2.diagnostics.runFailed = false := by
  by_cases hexecutes : s.Executes limits source
  · obtain ⟨hflag, haccepts⟩ := executes_iff.1 hexecutes
    have hclean : (s.run limits source).2.diagnostics.syntaxFailed = false := by
      simp [run_snd, hflag, haccepts]
    rw [run_of_executes hexecutes] at h hclean ⊢
    rw [answer_execute h, hclean]
    simp
  · have hmarked : (s.run limits source).2.diagnostics.syntaxFailed = true := by
      rw [executes_iff, not_and] at hexecutes
      cases hflag : s.diagnostics.syntaxFailed <;> simp_all [run_snd]
    rw [hmarked]
    rw [run_of_not_executes hexecutes] at h
    cases h
    simp

/-- In a session that can come up, a run answers unless its source loops
without end. -/
theorem Reachable.eq_endless_of_run (hs : s.Reachable) {escape : Escape}
    (h : (s.run limits source).1 = .error escape) : escape = .endless := by
  by_cases hexecutes : s.Executes limits source
  · have hforeseen := (runProgram_foreseen limits (executes_iff.1 hexecutes).2.sound hs.sound).2
    rw [run_of_executes hexecutes] at h
    exact eq_endless_of_execute hforeseen h
  · rw [run_of_not_executes hexecutes] at h
    cases h

end Session

open Session

/-- **The calls since the last clearing decide.** After any calls made to a
new session: the flag for errors in sources is set exactly if one of the
sources run since the record was last cleared has an error; the flag for
failed runs, exactly if one of the runs executed since then ended in a
runtime error or a stack overflow; and the exit code is 66 if a script could
not be opened since then, or else 65 or 70 for the flags. The next source,
from a script or not, is executed exactly if neither it nor another one since
then has an error: the run is then the execution of its statements, and
otherwise the state stays as it is. The answer is yes exactly if no flag is
set then, and only a loop without end keeps it back. What is written are the
errors of the scanner, then those of the reader, and then at most one report
of how the execution failed. -/
theorem history_decides (colored : Bool) (clock : ℕ → Float) (painter : Painter)
    (calls : List Call) :
    let s := (Session.start colored clock painter).after calls
    (s.diagnostics.syntaxFailed = true ↔ ∃ c ∈ sinceClear calls, c.Faulty) ∧
    (s.diagnostics.runFailed = true ↔
      (Session.start colored clock painter).FailedSinceClear calls) ∧
    (s.exitCode = if (sinceClear calls).any Call.unopened then 66
      else if s.diagnostics.syntaxFailed then 65
      else if s.diagnostics.runFailed then 70
      else 0) ∧
    (∀ c limits source, Call.source? c = some (limits, source) →
      c.perform s = (s.run limits source).2) ∧
    ∀ limits source,
      let ran := s.run limits source
      (s.Executes limits source ↔
        ¬ ∃ c ∈ sinceClear (calls ++ [.run limits source]), c.Faulty) ∧
      (s.Executes limits source → ran = s.execute limits (statementsOf limits source)) ∧
      (¬ s.Executes limits source → ran.2.state = s.state) ∧
      (∀ answer, ran.1 = .ok answer → (answer = true ↔
        ran.2.diagnostics.syntaxFailed = false ∧ ran.2.diagnostics.runFailed = false)) ∧
      (∀ escape, ran.1 = .error escape → escape = .endless) ∧
      ran.2.errorOutput = s.errorOutput ++ s.diagnostics.lines
        ((scan source).errors.toList.map .syntaxError ++
          (parse limits.depth (scan source).tokens.toList).errors.toList.map .syntaxError ++
          (s.failure? limits source).toList) := by
  intro s
  have hreachable : s.Reachable := (Reachable.start colored clock painter).after calls
  have hfaulty : s.diagnostics.syntaxFailed = true ↔ ∃ c ∈ sinceClear calls, c.Faulty :=
    syntaxFailed_after rfl calls
  have hscripts : s.unreadable = (sinceClear calls).any Call.unopened := unreadable_after rfl calls
  refine ⟨hfaulty, runFailed_after rfl calls, by rw [exitCode, hscripts],
    fun c limits source => Call.perform_of_source? s, fun limits source => ?_⟩
  have hexecutes : s.Executes limits source ↔
      ¬ ∃ c ∈ sinceClear (calls ++ [.run limits source]), c.Faulty := by
    rw [executes_iff, exists_sinceClear_concat, ← hfaulty]
    simp [Call.isClear, Call.Faulty, Call.source?]
  refine ⟨hexecutes, fun h => run_of_executes h, fun h => ?_, fun answer => answer_run,
    fun escape => hreachable.eq_endless_of_run, ?_⟩
  · rw [run_of_not_executes h]
  · rw [errorOutput_run, reports, sourceErrors, Array.toList_append, List.map_append]

end Treewalk
