import Treewalk.CommandLine
import Treewalk.Proofs.Session.Reports
import Treewalk.Proofs.Tree.Dumping

/-!
# Dumping agrees with running

A script is read in the same way to be run and to be dumped. So a dump of its
trees says whether the script is valid: it is refused where the run is, with
the same text, and otherwise it succeeds, **whatever the program would do if
it were run**.
-/

namespace Treewalk.CommandLine

/-! ## Requests -/

/-- A single argument that asks for a run is a plain one. -/
theorem sort_of_request {path : String} (h : request [path] = .run path true) :
    path ≠ "--" ∧ sort path = .ok (.plain path) := by
  by_cases hdivider : path = "--"
  · subst hdivider
    exact absurd h (by decide +kernel)
  · refine ⟨hdivider, ?_⟩
    rw [request, read, sortAll, if_neg hdivider] at h
    cases hsort : sort path with
    | error message =>
      rw [hsort] at h
      exact absurd h nofun
    | ok piece =>
      rw [hsort] at h
      cases piece with
      | plain text =>
        have hrun : Request.run text true = .run path true := h
        rw [(Request.run.inj hrun).1]
      | divider => exact absurd h nofun
      | long flag value => cases flag <;> cases value <;> exact absurd h nofun
      | short behind =>
        cases hearly : behindHelp behind <;>
          simp [sortAll, actAll, act, hearly, bind, Except.bind, pure, Except.pure,
            Except.mapError] at h
      | unknown text => exact absurd h nofun

/-- An option behind the path of a script turns the run into a dump. -/
theorem request_dump {path option : String} {flag : Flag} {view : View}
    (h : request [path] = .run path true) (hoption : sortAll [option] = .ok [.long flag none])
    (hflag : flag = .ast ∧ view = .trees ∨ flag = .tokens ∧ view = .tokens) :
    request [path, option] = .dump view path true := by
  obtain ⟨hdivider, hsort⟩ := sort_of_request h
  rw [request, read, sortAll, if_neg hdivider, hsort, hoption]
  obtain ⟨rfl, rfl⟩ | ⟨rfl, rfl⟩ := hflag <;> rfl

theorem request_trees {path : String} (h : request [path] = .run path true) :
    request [path, "--ast"] = .dump .trees path true :=
  request_dump h (by decide +kernel) (.inl ⟨rfl, rfl⟩)

theorem request_tokens {path : String} (h : request [path] = .run path true) :
    request [path, "--tokens"] = .dump .tokens path true :=
  request_dump h (by decide +kernel) (.inr ⟨rfl, rfl⟩)

/-! ## Scripts -/

variable {limits : Limits} {clock : ℕ → Float} {files : String → Option ByteArray}
variable {view : View} {path source : String} {colored : Bool} {painter : Painter}

/-- The text of the script at a path, if it can be opened and is text. -/
def textAt (files : String → Option ByteArray) (path : String) : Option String :=
  (files path).bind Text.decode?

/-- What the program does about a script that cannot be opened. -/
def unopened (path : String) (colored : Bool) (painter : Painter) : Outcome where
  err := (Diagnostics.warn { colored, painter } (Session.notOpened path)).written
  ending := .done 66

/-- What is written about the errors of a source. -/
def complaint (limits : Limits) (colored : Bool) (painter : Painter) (source : String) : String :=
  (Diagnostics.reportAll { colored, painter } (sourceErrors limits source)).written

theorem complaint_of_accepts (h : Accepts limits source) :
    complaint limits colored painter source = "" := by
  rw [complaint, accepts_iff_sourceErrors.1 h]
  rfl

theorem runPath_of_none (h : files path = none) :
    runPath limits clock files path colored painter = unopened path colored painter := by
  simp only [runPath, Session.runScript, h]
  rfl

theorem dump_of_none (h : files path = none) :
    dump limits files view path colored painter = unopened path colored painter := by
  simp only [dump, h]
  rfl

/-- A script that is text is run as its text. -/
theorem runScript_of_text {s : Session} (h : textAt files path = some source) :
    s.runScript limits files path =
      ((s.run limits source).1.map fun _ => (s.run limits source).2.exitCode,
        (s.run limits source).2) := by
  obtain ⟨bytes, hbytes, hdecode⟩ := Option.bind_eq_some_iff.1 h
  simp only [Session.runScript, hbytes, hdecode]

/-- A script that is text is dumped as its text. -/
theorem dump_of_text (h : textAt files path = some source) :
    dump limits files view path colored painter =
      dumpSource limits view { colored, painter } source := by
  obtain ⟨bytes, hbytes, hdecode⟩ := Option.bind_eq_some_iff.1 h
  simp only [dump, hbytes, hdecode]

/-- **A refused source is not executed.** -/
theorem runPath_of_refused (h : textAt files path = some source)
    (hrefused : ¬ Accepts limits source) :
    runPath limits clock files path colored painter =
      { err := complaint limits colored painter source, ending := .done 65 } := by
  have hstays : ¬ (Session.start colored clock painter).Executes limits source :=
    fun hexecutes => hrefused (Session.executes_iff.1 hexecutes).2
  have hflag : (Diagnostics.reportAll { colored, painter }
      (sourceErrors limits source)).syntaxFailed = true := by
    rw [syntaxFailed_sourceErrors]
    simp [hrefused]
  rw [runPath, runScript_of_text h, Session.run_of_not_executes hstays]
  simp [Except.map, Session.exitCode, Session.start, hflag, complaint, Session.output,
    Session.errorOutput, State.initial]

/-- An accepted source may fail when it is executed, and in no other way. -/
theorem ending_runPath_of_accepts (h : textAt files path = some source)
    (haccepts : Accepts limits source) {code : ℕ}
    (hcode : (runPath limits clock files path colored painter).ending = .done code) :
    code = 0 ∨ code = 70 := by
  have hsyntax : ((Session.start colored clock painter).run limits
      source).2.diagnostics.syntaxFailed = false := by
    rw [Session.run_snd]
    simp [Session.start, haccepts]
  have hopened :
      ((Session.start colored clock painter).run limits source).2.unreadable = false := by
    rw [Session.run_snd]
    rfl
  rw [runPath, runScript_of_text h] at hcode
  cases hresult : ((Session.start colored clock painter).run limits source).1 with
  | error escape =>
    rw [hresult] at hcode
    cases hcode
  | ok answer =>
    rw [hresult] at hcode
    rw [← Ending.done.inj hcode, Session.exitCode, hsyntax, hopened]
    cases ((Session.start colored clock painter).run limits source).2.diagnostics.runFailed <;> simp

/-! ## Dumps -/

/-- Trees that can all be dumped are dumped to the end. -/
theorem dumpAll_snd {depth : ℕ} {program : List Stmt}
    (h : ∀ s ∈ program, ∃ text, s.dump depth = .ok text) (done : String) :
    (dumpAll depth program done).2 = none := by
  induction program generalizing done with
  | nil => rfl
  | cons s rest ih =>
    obtain ⟨text, htext⟩ := h s List.mem_cons_self
    rw [dumpAll, htext]
    exact ih (fun s hs => h s (List.mem_cons_of_mem _ hs)) _

/-- **What a dump of the trees of a source says about it.** -/
theorem dump_trees_of_text (h : textAt files path = some source)
    (hheight : ∀ s ∈ statementsOf limits source, s.height ≤ limits.dumpDepth) :
    (dump limits files .trees path colored painter).err = complaint limits colored painter source ∧
      (dump limits files .trees path colored painter).ending =
        .done (if Accepts limits source then 0 else 65) := by
  have hboth : (Diagnostics.reportAll { colored, painter } (scan source).errors).reportAll
      (parse limits.depth (scan source).tokens.toList).errors =
        Diagnostics.reportAll { colored, painter } (sourceErrors limits source) :=
    Array.foldl_append.symm
  have hdumped : (dumpAll limits.dumpDepth (statementsOf limits source) "").2 = none :=
    dumpAll_snd (fun s hs => dumpable_of_mem_parse hs limits.dumpDepth (hheight s hs)) ""
  rw [statementsOf] at hdumped
  rw [dump_of_text h]
  simp only [dumpSource, hboth, hdumped, syntaxFailed_sourceErrors]
  refine ⟨rfl, ?_⟩
  by_cases haccepts : Accepts limits source <;> simp [haccepts]

/-- What a dump of the tokens of a source says about it. -/
theorem ending_dump_tokens_of_text (h : textAt files path = some source) :
    (dump limits files .tokens path colored painter).ending =
      .done (if (scan source).errors = #[] then 0 else 65) := by
  rw [dump_of_text h]
  simp only [dumpSource, syntaxFailed_reportAll]
  by_cases hscanned : (scan source).errors = #[] <;> simp [hscanned]

/-! ## Agreement -/

/-- **Running a script and dumping it agree on whether it is valid.** Either
both find that it cannot be opened, or both refuse it with the same text, and
nothing of it is run; or else its trees are dumped without a complaint,
whatever the run does. The dump of the trees always comes to its end, provided
that none of them is nested too deep to be dumped. -/
theorem dump_agrees_with_run (limits : Limits) (clock : ℕ → Float)
    (files : String → Option ByteArray) (input : String) (painter : Painter) {path : String}
    (hpath : request [path] = .run path true)
    (htext : ∀ bytes, files path = some bytes → (Text.decode? bytes).isSome)
    (hheight : ∀ source, textAt files path = some source →
      ∀ s ∈ statementsOf limits source, s.height ≤ limits.dumpDepth) :
    let run := perform limits clock files input (request [path]) painter
    let trees := perform limits clock files input (request [path, "--ast"]) painter
    let tokens := perform limits clock files input (request [path, "--tokens"]) painter
    (run.ending = .done 66 ↔ files path = none) ∧
    (run.ending = .done 66 ↔ trees.ending = .done 66) ∧
    (run.ending = .done 66 → run.err = trees.err) ∧
    (run.ending = .done 65 ↔ ∃ source, textAt files path = some source ∧ ¬ Accepts limits source) ∧
    (run.ending = .done 65 ↔ trees.ending = .done 65) ∧
    (run.ending = .done 65 → run.err = trees.err ∧ run.out = "") ∧
    (run.ending ≠ .done 66 → run.ending ≠ .done 65 → trees.ending = .done 0 ∧ trees.err = "") ∧
    (∃ code, trees.ending = .done code) ∧
    (tokens.ending = .done 65 ↔
      ∃ source, textAt files path = some source ∧ (scan source).errors ≠ #[]) := by
  rw [request_trees hpath, request_tokens hpath, hpath]
  simp only [perform]
  cases hfile : files path with
  | none =>
    have hnone : textAt files path = none := by rw [textAt, hfile]; rfl
    simp [runPath_of_none hfile, dump_of_none hfile, hnone, unopened]
  | some bytes =>
    obtain ⟨source, hdecode⟩ := Option.isSome_iff_exists.1 (htext bytes hfile)
    have hsource : textAt files path = some source := by rw [textAt, hfile]; exact hdecode
    have htrees :
        (dump limits files .trees path true painter).err = complaint limits true painter source ∧
        (dump limits files .trees path true painter).ending =
          .done (if Accepts limits source then 0 else 65) :=
      dump_trees_of_text hsource (hheight source hsource)
    rw [htrees.1, htrees.2, ending_dump_tokens_of_text hsource]
    by_cases haccepts : Accepts limits source
    · have h65 : (runPath limits clock files path true painter).ending ≠ .done 65 :=
        fun h => absurd (ending_runPath_of_accepts hsource haccepts h) (by decide)
      have h66 : (runPath limits clock files path true painter).ending ≠ .done 66 :=
        fun h => absurd (ending_runPath_of_accepts hsource haccepts h) (by decide)
      simp [h65, h66, hsource, haccepts, complaint_of_accepts haccepts, haccepts.scanned]
    · simp [runPath_of_refused hsource haccepts, hsource, haccepts]

/-- A script of which only the first statement can be read. -/
def halfRead : String := "print nil; nil nil;"

/-- Both complain about it, and its first statement is not run. -/
theorem halfRead_refused :
    let limits : Limits := { depth := 80, rounds := 8 }
    let files : String → Option ByteArray := fun _ => some halfRead.toUTF8
    let run := perform limits (fun _ => 0) files "" (request ["half.lox"])
    let trees := perform limits (fun _ => 0) files "" (request ["half.lox", "--ast"])
    request ["half.lox"] = .run "half.lox" true ∧ textAt files "half.lox" = some halfRead ∧
      (∀ s ∈ statementsOf limits halfRead, s.height ≤ limits.dumpDepth) ∧
      run.ending = .done 65 ∧ trees.ending = .done 65 ∧ run.err = trees.err ∧ run.out = "" := by
  intro limits files run trees
  have hpath : request ["half.lox"] = .run "half.lox" true := by decide +kernel
  have hdecode : Text.decode? halfRead.toUTF8 = some halfRead := by decide +kernel
  have htext : textAt files "half.lox" = some halfRead := hdecode
  have hheight : ∀ s ∈ statementsOf limits halfRead, s.height ≤ limits.dumpDepth := by
    decide +kernel
  have hrefused : ¬ Accepts limits halfRead := by decide +kernel
  obtain ⟨-, -, -, hcause, hboth, hsame, -⟩ :=
    dump_agrees_with_run limits (fun _ => 0) files "" .terminal hpath
      (fun bytes h => by
        cases h
        rw [hdecode]
        rfl)
      (fun source h => by
        cases htext.symm.trans h
        exact hheight)
  have hrun : run.ending = .done 65 := hcause.2 ⟨halfRead, htext, hrefused⟩
  exact ⟨hpath, htext, hheight, hrun, hboth.1 hrun, hsame hrun⟩

end Treewalk.CommandLine
