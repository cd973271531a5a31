import Treewalk.Proofs.Evaluation.Likeness
import Treewalk.Proofs.Grammar.WellFormed
import Treewalk.Proofs.Session.Runs

/-!
# Safety

An accepted program never reaches a place where the evaluator has no rule.
Trees of the grammar are well formed, and so is the code of every function
that a session has declared so far, whatever was run in it before. A run of
well-formed code goes the same way over the strict table of operators, which
has no answer beyond the language, and it stops only for a reason that the
language knows.
-/

namespace Treewalk

open Likeness

/-- Well-formed trees, each like itself, that fail only as the language
knows. -/
def sound : Likeness where
  token r t t' := t = t' ∧ t.kind ∈ r.kinds
  holes := False
  blame cause t t' := t = t' ∧ cause.foreseen

/-! ## The evaluator keeps to the language -/

/-- The strict table agrees with that of the language on well-formed trees. -/
theorem lawful_sound : sound.Lawful .standard .strict where
  name := by
    rintro t t' ⟨rfl, -⟩
    exact ⟨rfl, rfl, rfl⟩
  declared := by
    rintro t t' ⟨rfl, -⟩
    rfl
  paren := by
    rintro t t' ⟨rfl, -⟩
    exact ⟨⟨rfl, rfl⟩, fun n k => ⟨rfl, rfl⟩⟩
  connective := by
    rintro t t' ⟨rfl, -⟩
    rfl
  unary := by
    rintro o o' v ⟨rfl, ho⟩
    rw [Operators.strict_unary ho]
    exact steps_unary rfl fun e he => ⟨rfl, foreseen_of_applyUnary he⟩
  binary := by
    rintro o o' v w ⟨rfl, ho⟩
    rw [Operators.strict_binary ho]
    exact steps_binary rfl rfl fun e he => ⟨rfl, foreseen_of_applyBinary ho he⟩

theorem eq_of_code {bodies bodies' : List (List Stmt)}
    (h : List.Forall₂ sound.Code bodies bodies') : bodies' = bodies := by
  induction h with
  | nil => rfl
  | cons hbody _ ih => rw [ih, Stmt.eq_of_forall₂_like (fun _ _ _ => And.left) _ _ hbody]

theorem eq_of_states {s s' : State} (h : sound.States s s') : s' = s := by
  obtain ⟨hstore, hcode, houtput, hclock⟩ := h
  have hcode : s'.code = s.code := Array.ext' (eq_of_code hcode)
  cases s
  cases s'
  simp_all

/-- Ends for which the language has a rule. -/
inductive Foreseen {α : Type} : EStateM.Result Stop State α → Prop
  | ok {a : α} {s : State} : sound.States s s → Foreseen (.ok a s)
  | error {e : RuntimeError} {s : State} : e.cause.foreseen → sound.States s s →
      Foreseen (.error (.error e) s)
  | stackOverflow {s : State} : sound.States s s → Foreseen (.error .stackOverflow s)
  | endless {s : State} : sound.States s s → Foreseen (.error .endless s)

theorem eq_of_ends {α : Type} {r r' : EStateM.Result Stop State α} (h : sound.Ends Eq r r') :
    r' = r ∧ Foreseen r := by
  cases h with
  | ok ha hs =>
    obtain rfl := eq_of_states hs
    exact ⟨by rw [ha], .ok hs⟩
  | error he hs =>
    obtain rfl := eq_of_states hs
    cases he with
    | error hblame =>
      obtain ⟨rfl, hcause⟩ := hblame
      exact ⟨rfl, .error hcause hs⟩
    | stackOverflow => exact ⟨rfl, .stackOverflow hs⟩
    | endless => exact ⟨rfl, .endless hs⟩
    | malformed h => exact h.elim

/-- **Well-formed code keeps to the language**, and leaves a state in which
all code is well formed. -/
theorem runProgram_foreseen (limits : Limits) {program : List Stmt}
    (hprogram : sound.Code program program) {s : State} (hs : sound.States s s) :
    runProgramWith .strict limits program s = runProgram limits program s ∧
      Foreseen (runProgram limits program s) := by
  -- one run of the language and one over the strict table, from the same state
  exact eq_of_ends (steps_runProgram lawful_sound limits hprogram s s hs)

/-! ## Sessions -/

theorem Accepts.sound {limits : Limits} {source : String} (h : Accepts limits source) :
    sound.Code (statementsOf limits source) (statementsOf limits source) :=
  h.program.like fun _ _ _ hkind => ⟨rfl, hkind⟩

namespace Session

/-- A session in which all code is well formed. -/
def Sound (s : Session) : Prop := sound.States s.state s.state

/-- Sessions that can come up: from a new one, by running sources and
scripts, clearing the record, and moving text. -/
inductive Reachable : Session → Prop
  | start (colored : Bool) (clock : ℕ → Float) (painter : Painter) :
      Reachable (.start colored clock painter)
  | run {s : Session} (limits : Limits) (source : String) : Reachable s →
      Reachable (s.run limits source).2
  | runScript {s : Session} (limits : Limits) (files : String → Option ByteArray)
      (path : String) : Reachable s → Reachable (s.runScript limits files path).2
  | clear {s : Session} : Reachable s → Reachable s.clear
  | say {s : Session} (text : String) : Reachable s → Reachable (s.say text)
  | drained {s : Session} : Reachable s → Reachable s.drained

variable {limits : Limits} {source : String} {s : Session}

theorem sound_execute {program : List Stmt} (hprogram : sound.Code program program)
    (hs : s.Sound) : (s.execute limits program).2.Sound := by
  have hrun := (runProgram_foreseen limits hprogram hs).2
  unfold execute
  generalize runProgram limits program s.state = r at hrun
  cases hrun with
  | ok h | error _ h | stackOverflow h | endless h => exact h

/-- A run that the language has a rule for ends in the session or not at
all. -/
theorem eq_endless_of_execute {program : List Stmt} {escape : Escape}
    (hforeseen : Foreseen (runProgram limits program s.state))
    (h : (s.execute limits program).1 = .error escape) : escape = .endless := by
  unfold execute at h
  generalize runProgram limits program s.state = r at hforeseen h
  cases hforeseen with
  | ok _ | error _ _ | stackOverflow _ => cases h
  | endless _ =>
    cases h
    rfl

/-- **A run keeps all code well formed**, whatever the source is. -/
theorem sound_run (hs : s.Sound) : (s.run limits source).2.Sound := by
  rcases run_cases limits source s with ⟨haccepts, -, hrun⟩ | ⟨d, hrun⟩
  · rw [hrun]
    exact sound_execute haccepts.sound hs
  · -- a source that is refused declares nothing
    rw [hrun]
    exact hs

theorem Reachable.sound (h : s.Reachable) : s.Sound := by
  induction h with
  | start colored clock painter => exact ⟨rfl, .cons .nil .nil, rfl, rfl⟩
  | run limits source _ ih => exact sound_run ih
  | runScript limits files path _ ih =>
    unfold Session.runScript
    split
    · exact ih
    · split
      · exact ih
      · exact sound_run ih
  | clear _ ih => exact ih
  | say text _ ih | drained _ ih => exact ⟨rfl, ih.code, rfl, rfl⟩

end Session

/-! ## What a run can fail with -/

/-- The texts of the errors that the language knows. -/
inductive KnownMessage : String → Prop
  | operand : KnownMessage "Operand must be a number."
  | operands : KnownMessage "Operands must be numbers."
  | addends : KnownMessage "Operands must be two numbers or two strings."
  | division : KnownMessage "Division by zero."
  | callee : KnownMessage "Can only call functions and classes."
  | arity (n k : ℕ) :
      KnownMessage ("Expected " ++ toString n ++ " arguments but got " ++ toString k ++ ".")
  | name (x : String) : KnownMessage ("Undefined variable '" ++ x ++ "'.")

theorem knownMessage_of_foreseen {cause : RuntimeFault} (h : cause.foreseen) :
    KnownMessage cause.message := by
  cases cause with
  | unknownOperator => exact absurd h Bool.false_ne_true
  | _ => constructor

/-- **Accepted programs never hit an internal error.** In every session that
can come up, an accepted source runs just as over the strict table, which
has no answer to an operator that is not of the language and none to a
quotient that cannot be formed. If the run stops, then for want of room, in
a loop without end, or with one of the errors that the language knows. So
the session never meets a tree that is no program. -/
theorem run_safe_of_accepts (limits : Limits) {s : Session} (hs : s.Reachable) {source : String}
    (h : Accepts limits source) :
    runProgramWith .strict limits (statementsOf limits source) s.state =
        runProgram limits (statementsOf limits source) s.state ∧
      (∀ stop state, runProgram limits (statementsOf limits source) s.state = .error stop state →
        stop = .stackOverflow ∨ stop = .endless ∨
          ∃ e, stop = .error e ∧ KnownMessage e.message) ∧
      ∀ escape, (s.run limits source).1 = .error escape → escape = .endless := by
  obtain ⟨hstrict, hforeseen⟩ := runProgram_foreseen limits h.sound hs.sound
  have hstops : ∀ stop state,
      runProgram limits (statementsOf limits source) s.state = .error stop state →
        stop = .stackOverflow ∨ stop = .endless ∨
          ∃ e, stop = .error e ∧ KnownMessage e.message := by
    intro stop state hstop
    rw [hstop] at hforeseen
    cases hforeseen with
    | error hcause _ => exact .inr (.inr ⟨_, rfl, knownMessage_of_foreseen hcause⟩)
    | stackOverflow _ => exact .inl rfl
    | endless _ => exact .inr (.inl rfl)
  refine ⟨hstrict, hstops, fun escape hescape => ?_⟩
  rcases Session.run_cases limits source s with ⟨-, -, hrun⟩ | ⟨d, hrun⟩
  · -- nothing but an endless loop leaves a session
    rw [hrun] at hescape
    exact Session.eq_endless_of_execute hforeseen hescape
  · rw [hrun] at hescape
    cases hescape

/-- A session in which a function was declared that negates its argument. -/
def flipping : Session :=
  ((Session.start false fun _ => 0).run ⟨24, 8⟩ "fun flip(x) \x7b return -x; \x7d").2

/-- What a declared function does is covered too: a call of it fails with an
error that the language knows. -/
theorem flip_nil_safe :
    flipping.Reachable ∧ Accepts ⟨24, 8⟩ "flip(nil);" ∧
      runProgramWith .strict ⟨24, 8⟩ (statementsOf ⟨24, 8⟩ "flip(nil);") flipping.state =
        runProgram ⟨24, 8⟩ (statementsOf ⟨24, 8⟩ "flip(nil);") flipping.state ∧
      ∃ e state, runProgram ⟨24, 8⟩ (statementsOf ⟨24, 8⟩ "flip(nil);") flipping.state =
        .error (.error e) state ∧ KnownMessage e.message := by
  have hreachable : flipping.Reachable := .run _ _ (.start _ _ _)
  have haccepts : Accepts ⟨24, 8⟩ "flip(nil);" := ⟨by cbv, by cbv⟩
  obtain ⟨hstrict, hstops, -⟩ := run_safe_of_accepts ⟨24, 8⟩ hreachable haccepts
  obtain ⟨t, state, hrun⟩ : ∃ t state,
      runProgram ⟨24, 8⟩ (statementsOf ⟨24, 8⟩ "flip(nil);") flipping.state =
        .error (.error ⟨t, .operandNotNumber⟩) state := ⟨_, _, by cbv⟩
  refine ⟨hreachable, haccepts, hstrict, _, state, hrun, ?_⟩
  rcases hstops _ _ hrun with h | h | ⟨e, he, hmessage⟩
  · cases h
  · cases h
  · cases he
    exact hmessage

end Treewalk
