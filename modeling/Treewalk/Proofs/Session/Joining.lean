import Treewalk.Proofs.Evaluation.Likeness
import Treewalk.Proofs.Grammar.WellFormed
import Treewalk.Proofs.Session.Runs
import Treewalk.Proofs.Token.Joining

/-!
# Running joined sources

Two sources joined by a line end run as the one and then the other. They
have the statements of both, with the tokens of the second moved down, and a
run does not look at lines: it computes the same and prints the same, and
only the line of an error can tell. Which errors move is a matter of where
the blamed token stands. An error lies in a source if it moves down with it;
one that a function declared earlier is to blame for stays where it is.
-/

namespace Treewalk

open Likeness Grammar

/-! ## Moving down -/

@[simp] theorem Token.down_zero (t : Token) : t.down 0 = t := by
  simp [Token.down]

@[simp] theorem Token.line_down (n : ℕ) (t : Token) : (t.down n).line = t.line + n := rfl

theorem faithful_down (n : ℕ) : Faithful (Token.down n) := ⟨fun _ => rfl, fun _ => rfl⟩

/-- Statements with all tokens moved down. -/
def movedDown (n : ℕ) (program : List Stmt) : List Stmt :=
  program.map (Stmt.relabel (Token.down n))

@[simp] theorem movedDown_zero (program : List Stmt) : movedDown 0 program = program := by
  have hdown : Token.down 0 = id := funext Token.down_zero
  have hstmt : Stmt.relabel id = id := funext Stmt.relabel_id
  rw [movedDown, hdown, hstmt, List.map_id]

/-! ## Reading joined sources -/

theorem Reading.InRow.append {D : ℕ → List Token → Stmt → Prop} {opens : ℕ} {ts us : List Token}
    {program others : List Stmt} (h : InRow D opens ts program) (h' : InRow D opens us others) :
    InRow D opens (ts ++ us) (program ++ others) := by
  obtain ⟨parts, rfl, rfl, hparts⟩ := h
  obtain ⟨parts', rfl, rfl, hparts'⟩ := h'
  refine ⟨parts ++ parts', by simp, by simp, fun p hp => ?_⟩
  rcases List.mem_append.1 hp with hp | hp
  · exact hparts p hp
  · exact hparts' p hp

/-- Declarations in a row stay one when they move down. -/
theorem Reading.inRow_movedDown {depth : ℕ} {ts : List Token} (hts : Unmarked ts)
    (h : (readAll depth ts).2.faults = #[]) (n : ℕ) :
    InRow (RecognizedDecl depth) 0 (ts.map (Token.down n)) (movedDown n (readAll depth ts).1) := by
  have hshallow : ¬ Overrun (readAll depth ts).2 := by
    rintro ⟨x, hx, -⟩
    rw [h] at hx
    cases hx
  have hmap := readAll_map (faithful_down n) le_rfl ts hshallow
  have hmoved : Unmarked (ts.map (Token.down n)) := List.forall_mem_map.2 hts
  have hrow := @inRow_of_readAll depth (ts.map (Token.down n)) hmoved
  rw [hmap] at hrow
  exact hrow (by simp [Cursor.relabel, h])

variable {limits : Limits} {first second source : String}

theorem Accepts.faults (h : Accepts limits source) :
    (Reading.readAll limits.depth (programTokens (scan source).tokens.toList)).2.faults = #[] :=
  errors_parse_eq_empty.1 h.parsed

/-- **Joined sources have the statements of both**, those of the second moved
down. -/
theorem readAll_joined (hfirst : Accepts limits first) (hsecond : Accepts limits second) :
    Reading.readAll limits.depth (programTokens (scan (joined first second)).tokens.toList) =
      (statementsOf limits first ++ movedDown (lineCount first) (statementsOf limits second),
        { ahead := [] }) := by
  have hrow := Reading.inRow_of_readAll (unmarked_programTokens _) hfirst.faults
  have hmoved := Reading.inRow_movedDown (unmarked_programTokens _) hsecond.faults
    (lineCount first)
  rw [programTokens_joined hfirst.scanned, statementsOf, statements_parse, statementsOf,
    statements_parse]
  exact Reading.readAll_of_inRow (hrow.append hmoved)

theorem accepts_joined (hfirst : Accepts limits first) (hsecond : Accepts limits second) :
    Accepts limits (joined first second) := by
  refine ⟨errors_scan_joined hfirst.scanned hsecond.scanned, ?_⟩
  rw [errors_parse_eq_empty, readAll_joined hfirst hsecond]

theorem statementsOf_joined (hfirst : Accepts limits first) (hsecond : Accepts limits second) :
    statementsOf limits (joined first second) =
      statementsOf limits first ++ movedDown (lineCount first) (statementsOf limits second) := by
  rw [statementsOf, statements_parse, readAll_joined hfirst hsecond]

/-- The empty source is accepted and says nothing. -/
theorem accepts_empty (limits : Limits) : Accepts limits "" ∧ statementsOf limits "" = [] := by
  have htokens : programTokens (scan "").tokens.toList = [] := by
    rw [programTokens_scan, String.toList_empty, Segment.pieces_nil]
    rfl
  have hread : Reading.readAll limits.depth [] = ([], { ahead := [] }) :=
    Reading.readAll_of_inRow ⟨[], rfl, rfl, fun _ h => absurd h List.not_mem_nil⟩
  refine ⟨⟨errors_scan_eq_empty.2 ?_, ?_⟩, ?_⟩
  · rw [String.toList_empty, Segment.pieces_nil]
    exact fun _ h => absurd h List.not_mem_nil
  · rw [errors_parse_eq_empty, htokens, hread]
  · rw [statementsOf, statements_parse, htokens, hread]

/-- Behind an empty line, everything stands a line further down. -/
theorem statementsOf_newline (h : Accepts limits source) :
    statementsOf limits ("\n" ++ source) = movedDown 1 (statementsOf limits source) := by
  have hjoined : joined "" source = "\n" ++ source := by simp [joined]
  obtain ⟨hempty, hnone⟩ := accepts_empty limits
  rw [← hjoined, statementsOf_joined hempty h, hnone, List.nil_append]
  rfl

/-! ## Running code that has moved -/

/-- The tokens of the functions declared so far. -/
def State.tokens (s : State) : List Token := s.code.toList.flatMap Stmt.tokensAll

/-- A token of old code, or one of new code that stands `i` lines below its
place and then `j` lines. -/
def Moved (old new : List Token) (i j : ℕ) (t t' : Token) : Prop :=
  (t = t' ∧ t ∈ old) ∨ ∃ u ∈ new, t = u.down i ∧ t' = u.down j

theorem Moved.kind {old new : List Token} {i j : ℕ} {t t' : Token} (h : Moved old new i j t t') :
    t'.kind = t.kind := by
  rcases h with ⟨rfl, -⟩ | ⟨u, -, rfl, rfl⟩ <;> rfl

theorem Moved.lexeme {old new : List Token} {i j : ℕ} {t t' : Token}
    (h : Moved old new i j t t') : t'.lexeme = t.lexeme := by
  rcases h with ⟨rfl, -⟩ | ⟨u, -, rfl, rfl⟩ <;> rfl

/-- Trees in which the tokens of new code have moved. -/
def moved (old new : List Token) (i j : ℕ) : Likeness where
  token _ := Moved old new i j
  holes := True
  blame _ := Moved old new i j

/-- The evaluator does not look at lines. -/
theorem lawful_moved (old new : List Token) (i j : ℕ) :
    (moved old new i j).Lawful .standard .standard where
  name h := ⟨h.lexeme, h⟩
  declared h := h.lexeme
  paren h := ⟨h, fun _ _ => h⟩
  connective h := h.kind
  unary _ h := steps_unary h.kind fun _ _ => h
  binary _ _ h := steps_binary h.kind h.lexeme fun _ _ => h

/-- A state is like itself when nothing of it moves. -/
theorem states_moved (s : State) (new : List Token) (i j : ℕ) :
    (moved s.tokens new i j).States s s := by
  refine ⟨rfl, List.forall₂_same.2 fun body hbody => ?_, rfl, rfl⟩
  exact Stmt.forall₂_like_self trivial body fun t ht _ =>
    .inl ⟨rfl, List.mem_flatMap.2 ⟨body, hbody, ht⟩⟩

/-- **A run does not depend on where its code stands.** -/
theorem ends_movedDown {ts : List Token} {program : List Stmt} (h : Program ts program)
    (limits : Limits) (i j : ℕ) (s : State) :
    (moved s.tokens ts i j).Ends Eq (runProgram limits (movedDown i program) s)
      (runProgram limits (movedDown j program) s) := by
  have hself : List.Forall₂ (Stmt.Like (fun _ t t' => t = t' ∧ t ∈ ts) False) program program :=
    h.like fun t ht _ _ => ⟨rfl, ht⟩
  have htoken : ∀ (r : Role) (t t' : Token), t = t' ∧ t ∈ ts →
      (moved s.tokens ts i j).token r (t.down i) (t'.down j) := by
    rintro r t t' ⟨rfl, ht⟩
    exact .inr ⟨t, ht, rfl, rfl⟩
  have hcode : (moved s.tokens ts i j).Code (movedDown i program) (movedDown j program) := by
    have hmoved := Stmt.forall₂_like_relabel ⟨htoken, fun _ => trivial⟩ _ _ hself
    rwa [Stmt.relabelAll_eq_map, Stmt.relabelAll_eq_map] at hmoved
  exact steps_runProgram (lawful_moved s.tokens ts i j) limits hcode s s (states_moved s ts i j)

/-! ## Which errors move -/

/-- A token that moves by one line moves by any number of lines, and one that
stays stays. -/
theorem moves_or_stays {old new : List Token} {n : ℕ} (hn : 0 < n) {t t₁ t' : Token}
    (hone : Moved old new 0 1 t t₁) (hmany : Moved old new 0 n t t')
    (hrest : Moved old new 1 n t₁ t') :
    (t₁.line = t.line + 1 ∧ t ∈ new ∧ t' = t.down n) ∨
      (t₁.line = t.line ∧ t ∈ old ∧ t' = t) := by
  rcases hmany with ⟨rfl, hold⟩ | ⟨v, hnew, rfl, rfl⟩
  · right
    refine ⟨?_, hold, rfl⟩
    rcases hone with ⟨rfl, -⟩ | ⟨u, -, rfl, rfl⟩
    · rfl
    · -- it would have moved by one line and then back
      rcases hrest with ⟨hrest, -⟩ | ⟨w, -, hw, hw'⟩
      · have hline := congrArg Token.line hrest
        simp at hline
      · have hline := congrArg Token.line hw
        have hline' := congrArg Token.line hw'
        simp only [Token.line_down] at hline hline'
        omega
  · left
    rw [Token.down_zero] at hone ⊢
    rcases hone with ⟨rfl, -⟩ | ⟨u, -, hu, rfl⟩
    · -- it would have stayed and then moved by all the lines at once
      rcases hrest with ⟨hrest, -⟩ | ⟨w, -, hw, hw'⟩
      · have hline := congrArg Token.line hrest
        simp only [Token.line_down] at hline
        omega
      · have hline := congrArg Token.line hw
        have hline' := congrArg Token.line hw'
        simp only [Token.line_down] at hline hline'
        omega
    · rw [Token.down_zero] at hu
      rw [hu]
      exact ⟨rfl, hu ▸ hnew, rfl⟩

theorem Likeness.Ends.of_error {L : Likeness} {e : RuntimeError} {s : State}
    {r : EStateM.Result Stop State Unit} (h : L.Ends Eq (.error (.error e) s) r) :
    ∃ t' s', r = .error (.error ⟨t', e.cause⟩) s' ∧ L.blame e.cause e.token t' := by
  cases h with
  | error hstops _ =>
    cases hstops with
    | error hblame => exact ⟨_, _, rfl, hblame⟩

namespace Session

/-- Running a source fails with an error that lies in the source: with an
empty line in front of the source, it is reported one line later. -/
def ErrorLiesIn (limits : Limits) (s : Session) (source : String) : Prop :=
  ∃ e e' state state',
    runProgram limits (statementsOf limits source) s.state = .error (.error e) state ∧
      runProgram limits (statementsOf limits ("\n" ++ source)) s.state =
        .error (.error e') state' ∧ e'.line = e.line + 1

/-- **An error lies in the source and moves with it, or it stays.** -/
theorem error_moves {s : Session} (h : Accepts limits source) {n : ℕ} (hn : 0 < n)
    {e : RuntimeError} {state : State}
    (hrun : runProgram limits (statementsOf limits source) s.state = .error (.error e) state) :
    ∃ e' state', runProgram limits (movedDown n (statementsOf limits source)) s.state =
        .error (.error e') state' ∧ e'.cause = e.cause ∧
      (s.ErrorLiesIn limits source → e.token ∈ programTokens (scan source).tokens.toList ∧
        e'.line = e.line + n) ∧
      (¬ s.ErrorLiesIn limits source → e.token ∈ s.state.tokens ∧ e'.line = e.line) := by
  -- three runs, pairwise compared: in place, one line down, and `n` lines down
  have hone := ends_movedDown h.program limits 0 1 s.state
  have hmany := ends_movedDown h.program limits 0 n s.state
  have hrest := ends_movedDown h.program limits 1 n s.state
  rw [movedDown_zero, hrun] at hone hmany
  obtain ⟨t₁, s₁, hrun₁, hblame₁⟩ := hone.of_error
  obtain ⟨t', s', hrun', hblame'⟩ := hmany.of_error
  rw [hrun₁, hrun'] at hrest
  obtain ⟨_, _, hsame, hblame⟩ := hrest.of_error
  cases hsame
  have hlies : s.ErrorLiesIn limits source ↔ t₁.line = e.token.line + 1 := by
    constructor
    · rintro ⟨e₀, e₁, _, _, hrun₀, hnewline, hline⟩
      rw [hrun] at hrun₀
      rw [statementsOf_newline h, hrun₁] at hnewline
      cases hrun₀
      cases hnewline
      exact hline
    · intro hline
      refine ⟨e, ⟨t₁, e.cause⟩, state, s₁, hrun, ?_, hline⟩
      rw [statementsOf_newline h, hrun₁]
  rcases moves_or_stays hn hblame₁ hblame' hblame with
    ⟨hline, hmem, rfl⟩ | ⟨hline, hmem, rfl⟩
  · exact ⟨_, s', hrun', rfl, fun _ => ⟨hmem, rfl⟩, fun hnot => absurd (hlies.2 hline) hnot⟩
  · refine ⟨_, s', hrun', rfl, fun hin => absurd (hlies.1 hin) ?_, fun _ => ⟨hmem, rfl⟩⟩
    omega

/-! ## Sessions -/

/-- Tokens that differ at most in their lines. -/
def SameButLine (_ : Role) (t t' : Token) : Prop := t' = { t with line := t'.line }

/-- Sessions that differ only in the lines of the code of functions, and in
the text of errors. -/
structure SameButLines (s s' : Session) : Prop where
  output : s'.output = s.output
  exitCode : s'.exitCode = s.exitCode
  globals : s'.state.globals = s.state.globals
  store : s'.state.store = s.state.store
  code : List.Forall₂ (List.Forall₂ (Stmt.Like SameButLine True))
    s.state.code.toList s'.state.code.toList
  clock : s'.state.clock = s.state.clock

theorem sameButLine_of_moved {old new : List Token} {i j : ℕ} (r : Role) (t t' : Token)
    (h : Moved old new i j t t') : SameButLine r t t' := by
  rcases h with ⟨rfl, -⟩ | ⟨u, -, rfl, rfl⟩ <;> rfl

theorem sameButLines_of_states {old new : List Token} {i j : ℕ} {s s' : State}
    {d d' : Diagnostics} {unreadable : Bool} (hs : (moved old new i j).States s s')
    (hrefused : d'.syntaxFailed = d.syntaxFailed) (hrun : d'.runFailed = d.runFailed) :
    SameButLines ⟨s, d, unreadable⟩ ⟨s', d', unreadable⟩ where
  output := hs.output
  exitCode := by simp only [exitCode, hrefused, hrun]
  globals := by simp only [State.globals, hs.store]
  store := hs.store
  code := hs.code.imp fun _ _ => Stmt.forall₂_like_imp sameButLine_of_moved id
  clock := hs.clock

/-- Executing a source that has moved gives the same answer and, but for
lines, the same session. -/
theorem execute_movedDown (h : Accepts limits source) (n : ℕ) (s : Session) :
    (s.execute limits (movedDown n (statementsOf limits source))).1 =
        (s.execute limits (statementsOf limits source)).1 ∧
      SameButLines (s.execute limits (statementsOf limits source)).2
        (s.execute limits (movedDown n (statementsOf limits source))).2 := by
  have hends := ends_movedDown h.program limits 0 n s.state
  rw [movedDown_zero] at hends
  unfold execute
  generalize runProgram limits (statementsOf limits source) s.state = r at hends
  generalize runProgram limits (movedDown n (statementsOf limits source)) s.state = r' at hends
  cases hends with
  | ok _ hs => exact ⟨rfl, sameButLines_of_states hs rfl rfl⟩
  | error hstops hs =>
    cases hstops with
    | error | stackOverflow | endless | malformed =>
      exact ⟨rfl, sameButLines_of_states hs rfl rfl⟩

theorem errorOutput_execute {program : List Stmt} {s : Session} {e : RuntimeError} {state : State}
    (h : runProgram limits program s.state = .error (.error e) state) :
    (s.execute limits program).2.errorOutput =
      s.errorOutput ++ s.diagnostics.failureText e.message e.line := by
  rw [execute, h]
  exact String.append_assoc ..

/-- The text of errors is the same if the errors stay on their lines. -/
theorem errorOutput_of_ends {L : Likeness} {program program' : List Stmt} {s : Session}
    (h : L.Ends Eq (runProgram limits program s.state) (runProgram limits program' s.state))
    (hline : ∀ e e' state state', runProgram limits program s.state = .error (.error e) state →
      runProgram limits program' s.state = .error (.error e') state' → e'.line = e.line) :
    (s.execute limits program').2.errorOutput = (s.execute limits program).2.errorOutput := by
  unfold execute
  generalize runProgram limits program s.state = r at h hline
  generalize runProgram limits program' s.state = r' at h hline
  cases h with
  | ok _ _ => rfl
  | error hstops _ =>
    cases hstops with
    | error _ =>
      have hsame := hline _ _ _ _ rfl rfl
      simp only [settle, RuntimeError.message, hsame, errorOutput]
    | stackOverflow | endless | malformed => rfl

/-- An error that does not lie in the source stays when the source moves: a
function declared before is to blame. -/
theorem errorOutput_of_not_liesIn {s : Session} (h : Accepts limits source) {n : ℕ} (hn : 0 < n)
    (hnot : ¬ s.ErrorLiesIn limits source) :
    (s.execute limits (movedDown n (statementsOf limits source))).2.errorOutput =
        (s.execute limits (statementsOf limits source)).2.errorOutput ∧
      ∀ e state,
        runProgram limits (statementsOf limits source) s.state = .error (.error e) state →
          e.token ∈ s.state.tokens := by
  have hends := ends_movedDown h.program limits 0 n s.state
  rw [movedDown_zero] at hends
  constructor
  · refine errorOutput_of_ends hends fun e e' _ _ hrun hrun' => ?_
    obtain ⟨_, _, hmoved, -, -, hstays⟩ := error_moves h hn hrun
    rw [hrun'] at hmoved
    cases hmoved
    exact (hstays hnot).2
  · intro e _ hrun
    obtain ⟨_, _, -, -, -, hstays⟩ := error_moves h hn hrun
    exact (hstays hnot).1

/-- An error that lies in the source moves with it. -/
theorem errorOutput_of_liesIn {s : Session} (h : Accepts limits source) {n : ℕ} (hn : 0 < n)
    (hlies : s.ErrorLiesIn limits source) :
    ∃ e state, runProgram limits (statementsOf limits source) s.state = .error (.error e) state ∧
      e.token ∈ (scan source).tokens ∧
      (s.execute limits (statementsOf limits source)).2.errorOutput =
        s.errorOutput ++ s.diagnostics.failureText e.message e.line ∧
      (s.execute limits (movedDown n (statementsOf limits source))).2.errorOutput =
        s.errorOutput ++ s.diagnostics.failureText e.message (e.line + n) := by
  obtain ⟨e, -, state, -, hrun, -, -⟩ := id hlies
  obtain ⟨e', _, hrun', hcause, hmoves, -⟩ := error_moves h hn hrun
  obtain ⟨hmem, hline⟩ := hmoves hlies
  have hscan : e.token ∈ (scan source).tokens.toList := (List.takeWhile_prefix _).subset hmem
  refine ⟨e, state, hrun, Array.mem_toList_iff.1 hscan, errorOutput_execute hrun, ?_⟩
  rw [errorOutput_execute hrun', hline, RuntimeError.message, hcause]
  rfl

/-- **A joined source goes on where its first part ended**, with the second
part moved down. -/
theorem run_joined_eq {s : Session} {state : State} (hfirst : Accepts limits first)
    (hsecond : Accepts limits second) (hflag : s.diagnostics.syntaxFailed = false)
    (hstate : runProgram limits (statementsOf limits first) s.state = .ok () state) :
    s.run limits (joined first second) = execute limits { s with state := state }
      (movedDown (lineCount first) (statementsOf limits second)) := by
  rw [run_of_accepts (accepts_joined hfirst hsecond) hflag, statementsOf_joined hfirst hsecond,
    execute, execute, runProgram_append hstate]

end Session

/-- **Running two sources one after the other is running them joined.** If
the first run answers that all went well and the second source is accepted,
the joined source gives the same answer, and leaves the same output, exit
code, globals and clock; only lines in the code of functions differ. The text
of errors is the same as well, and a token of a function declared before the
second run is to blame; except for an error that lies in the second source:
that one is reported as many lines later as the first source has. -/
theorem run_joined (limits : Limits) (s : Session) {first second : String}
    (hfirst : (s.run limits first).1 = .ok true) (hsecond : Accepts limits second) :
    let between := (s.run limits first).2
    let apart := between.run limits second
    let once := s.run limits (joined first second)
    once.1 = apart.1 ∧ Session.SameButLines apart.2 once.2 ∧
      (¬ between.ErrorLiesIn limits second →
        once.2.errorOutput = apart.2.errorOutput ∧ ∀ e state,
          runProgram limits (statementsOf limits second) between.state = .error (.error e) state →
            e.token ∈ between.state.tokens) ∧
      (between.ErrorLiesIn limits second → ∃ e state,
        runProgram limits (statementsOf limits second) between.state = .error (.error e) state ∧
          e.token ∈ (scan second).tokens ∧
          apart.2.errorOutput = s.errorOutput ++ s.diagnostics.failureText e.message e.line ∧
          once.2.errorOutput = s.errorOutput ++
            s.diagnostics.failureText e.message (e.line + lineCount first)) := by
  -- an answer that all went well: accepted, no flag set, and run to the end
  obtain ⟨haccepts, hflag, state, hstate, hbetween⟩ := Session.run_true hfirst
  have hpos : 0 < lineCount first := Nat.succ_pos _
  have hapart : Session.run limits { s with state := state } second =
      Session.execute limits { s with state := state } (statementsOf limits second) :=
    Session.run_of_accepts hsecond hflag
  dsimp only
  rw [hbetween, hapart, Session.run_joined_eq haccepts hsecond hflag hstate]
  obtain ⟨hanswer, hsame⟩ := Session.execute_movedDown hsecond (lineCount first) _
  exact ⟨hanswer, hsame, Session.errorOutput_of_not_liesIn hsecond hpos,
    Session.errorOutput_of_liesIn hsecond hpos⟩

/-- A source of two lines that binds a variable. -/
def binding : String := "var a;\nfun f() \x7b return a; \x7d"

/-- A source that fails in its second line when it is run behind the other. -/
def negating : String := "print a;\n-f();"

/-- An error in the second line of the second source is reported in the
fourth line of the joined source. -/
theorem negating_joined :
    let s := Session.start false fun _ => 0
    (s.run ⟨24, 8⟩ binding).1 = .ok true ∧ Accepts ⟨24, 8⟩ negating ∧
      ((s.run ⟨24, 8⟩ binding).2.run ⟨24, 8⟩ negating).2.errorOutput =
        s.diagnostics.failureText "Operand must be a number." 2 ∧
      (s.run ⟨24, 8⟩ (joined binding negating)).2.errorOutput =
        s.diagnostics.failureText "Operand must be a number." 4 := by
  intro s
  have hfirst : (s.run ⟨24, 8⟩ binding).1 = .ok true := by cbv
  have hsecond : Accepts ⟨24, 8⟩ negating := ⟨by cbv, by cbv⟩
  have hlines : lineCount binding = 2 := by cbv
  obtain ⟨state, hrun⟩ : ∃ state, runProgram ⟨24, 8⟩ (statementsOf ⟨24, 8⟩ negating)
      (s.run ⟨24, 8⟩ binding).2.state =
        .error (.error ⟨⟨.minus, "-", .nil, 2⟩, .operandNotNumber⟩) state := ⟨_, by cbv⟩
  obtain ⟨state', hrun'⟩ : ∃ state, runProgram ⟨24, 8⟩ (statementsOf ⟨24, 8⟩ ("\n" ++ negating))
      (s.run ⟨24, 8⟩ binding).2.state =
        .error (.error ⟨⟨.minus, "-", .nil, 3⟩, .operandNotNumber⟩) state := ⟨_, by cbv⟩
  obtain ⟨-, -, -, hlies⟩ := run_joined ⟨24, 8⟩ s hfirst hsecond
  obtain ⟨e, _, herror, -, hapart, honce⟩ := hlies ⟨_, _, state, state', hrun, hrun', rfl⟩
  rw [hrun] at herror
  cases herror
  rw [hlines] at honce
  exact ⟨hfirst, hsecond, hapart.trans (String.empty_append ..),
    honce.trans (String.empty_append ..)⟩

end Treewalk
