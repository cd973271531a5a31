import Treewalk.Proofs.Prompt.Entries
import Treewalk.Proofs.Session.Depth

/-!
# Conversations at the prompt

What comes of lines typed one after the other, when none of them is a
command. The sources that the session runs are the entries that the lines are
cut into, and the pending text is the rest. Every entry finds a clean record,
so an entry with an error in its source leaves no trace but its own reports:
the session behind it is the one before it, with more text written
(`runEntry_of_not_accepts`), and no later line can tell.
-/

namespace Treewalk

namespace Session

variable {limits : Limits} {source : String} {s : Session}

/-- The session behind an entry: the entry is run, and the record cleared. -/
def runEntry (limits : Limits) (s : Session) (source : String) : Session :=
  (s.run limits source).2.clear

/-- The session with another error text. -/
def withErrorOutput (s : Session) (text : String) : Session :=
  { s with diagnostics := { s.diagnostics with written := text } }

@[simp] theorem withErrorOutput_errorOutput (s : Session) : s.withErrorOutput s.errorOutput = s :=
  rfl

theorem executes_withErrorOutput (text : String) :
    (s.withErrorOutput text).Executes limits source ↔ s.Executes limits source := by
  rw [executes_iff, executes_iff]
  rfl

theorem reports_withErrorOutput (text : String) :
    (s.withErrorOutput text).reports limits source = s.reports limits source := by
  simp only [reports, failure?, executes_withErrorOutput]
  rfl

/-- **No entry reads the error text.** It adds its reports to whatever is
there. -/
theorem runEntry_withErrorOutput (limits : Limits) (s : Session) (source text : String) :
    (s.withErrorOutput text).runEntry limits source =
      (s.runEntry limits source).withErrorOutput
        (text ++ s.diagnostics.lines (s.reports limits source)) := by
  have hlines : (s.withErrorOutput text).diagnostics.lines = s.diagnostics.lines :=
    Diagnostics.lines_congr rfl rfl
  rw [runEntry, run_snd, runEntry, run_snd]
  simp only [executes_withErrorOutput, reports_withErrorOutput, hlines]
  rfl

/-- Nothing is on record. -/
structure Clean (s : Session) : Prop where
  accepted : s.diagnostics.syntaxFailed = false
  succeeded : s.diagnostics.runFailed = false
  opened : s.unreadable = false

theorem clean_runEntry (limits : Limits) (s : Session) (source : String) :
    (s.runEntry limits source).Clean :=
  ⟨rfl, rfl, rfl⟩

theorem Clean.exitCode (h : s.Clean) : s.exitCode = 0 := by
  simp [Session.exitCode, h.accepted, h.succeeded, h.opened]

/-- **An entry with an error in its source** adds its reports and changes
nothing else. -/
theorem runEntry_of_not_accepts (hclean : s.Clean) (h : ¬ Accepts limits source) :
    s.runEntry limits source =
      s.withErrorOutput (s.errorOutput ++ s.diagnostics.lines (s.reports limits source)) := by
  have hrefused : ¬ s.Executes limits source := fun hexecutes => h (executes_iff.1 hexecutes).2
  rw [runEntry, run_snd, if_neg hrefused]
  simp only [clear, Diagnostics.clear, withErrorOutput, errorOutput, hclean.accepted,
    hclean.succeeded, hclean.opened]

end Session

namespace Prompt

open Session

variable {limits : Limits} {line : String} {lines : List String} {p : Prompt} {s : Session}

/-! ## Lines that are no commands -/

/-- A line without the blanks around it. -/
def trimmed (line : String) : String := String.ofList (Text.trim line.toList)

/-- The word a line starts with. -/
def leadingWord (line : String) : String :=
  String.ofList ((Text.trim line.toList).takeWhile isWordChar)

/-- A line that neither asks for help nor starts with the word of a
command. -/
structure Ordinary (line : String) : Prop where
  mark : (Text.trim line.toList).head? ≠ some '?'
  word : leadingWord line ∉ ["help", "exit", "EOF"]

instance : Decidable (Ordinary line) :=
  decidable_of_iff _ ⟨fun h => Ordinary.mk h.1 h.2, fun h => And.intro h.mark h.word⟩

/-- What is typed in lines: the blank ones are dropped, and so are the blanks
around the others. -/
def typedLines (lines : List String) : List String := (lines.map trimmed).filter (· ≠ "")

theorem Ordinary.ofWord? (h : Ordinary line) : Command.ofWord? (leadingWord line) = none := by
  obtain ⟨-, hword⟩ := h
  generalize leadingWord line = word at hword
  simp only [List.mem_cons, List.not_mem_nil, or_false, not_or] at hword
  simp [Command.ofWord?, Command.word, Ne.symm hword.1, Ne.symm hword.2.1, Ne.symm hword.2.2]

/-- **Such a line** is added to the pending entry, unless it is blank, and
never asks to stop. -/
theorem enter_of_ordinary (h : Ordinary line) (limits : Limits) (p : Prompt) :
    p.enter limits line =
      (false, if trimmed line = "" then p else p.submit limits (trimmed line)) := by
  have hword := h.ofWord?
  have hmark := h.mark
  unfold leadingWord at hword
  unfold enter trimmed
  split
  case h_1 hnil => simp [hnil]
  case h_2 hquestion => simp [hquestion] at hmark
  case h_3 hbang => simp [hbang]
  case h_4 hnil _ _ =>
    have hne : Text.trim line.toList ≠ [] := hnil
    simp [interpret, hword, hne]

/-- The prompt after lines. -/
def enterAll (limits : Limits) (p : Prompt) (lines : List String) : Prompt :=
  lines.foldl (fun p line => (p.enter limits line).2) p

theorem enterAll_cons (p : Prompt) (line : String) (rest : List String) :
    p.enterAll limits (line :: rest) = enterAll limits (p.enter limits line).2 rest := rfl

theorem enterAll_append (p : Prompt) (first second : List String) :
    p.enterAll limits (first ++ second) = (p.enterAll limits first).enterAll limits second :=
  List.foldl_append

theorem typedLines_cons (line : String) (rest : List String) :
    typedLines (line :: rest) =
      if trimmed line = "" then typedLines rest else trimmed line :: typedLines rest := by
  split <;> simp [typedLines, *]

/-! ## Submitting a line -/

/-- A line that leaves the entry unfinished. -/
theorem submit_of_unfinished (limits : Limits)
    (h : isUnfinished (p.pending ++ line ++ "\n") = true) :
    p.submit limits line = ⟨p.session, p.pending ++ line ++ "\n", nextMark⟩ :=
  if_pos h

/-- A line that completes the entry. -/
theorem submit_of_finished (limits : Limits)
    (h : ¬ isUnfinished (p.pending ++ line ++ "\n") = true) :
    p.submit limits line =
      ⟨p.session.runEntry limits (p.pending ++ line ++ "\n"), "", firstMark⟩ :=
  if_neg h

/-- The prompt with a session, and lines that are pending. -/
def holding (s : Session) (part : List String) : Prompt where
  session := s
  pending := textOf part
  mark := if part.isEmpty then firstMark else nextMark

theorem submit_holding (limits : Limits) (s : Session) (part : List String) (line : String) :
    (holding s part).submit limits line =
      let next := gather (fun s block => s.runEntry limits (textOf block)) (s, part) line
      holding next.1 next.2 := by
  have hmark : (part ++ [line]).isEmpty = false := by simp
  simp only [submit, holding, gather, ← textOf_concat]
  split
  · simp only [hmark]
    rfl
  · rfl

/-- **The prompt gathers lines**, and has the session run each entry. -/
theorem enterAll_holding (hlines : ∀ line ∈ lines, Ordinary line) (limits : Limits) (s : Session)
    (part : List String) :
    (holding s part).enterAll limits lines =
      let last := (typedLines lines).foldl
        (gather fun s block => s.runEntry limits (textOf block)) (s, part)
      holding last.1 last.2 := by
  induction lines generalizing s part with
  | nil => rfl
  | cons line rest ih =>
    obtain ⟨hline, hrest⟩ := List.forall_mem_cons.1 hlines
    rw [enterAll_cons, enter_of_ordinary hline, typedLines_cons]
    by_cases hblank : trimmed line = ""
    · rw [if_pos hblank, if_pos hblank]
      exact ih hrest s part
    · rw [if_neg hblank, if_neg hblank, submit_holding]
      exact ih hrest _ _

/-- The session behind the entries of blocks. -/
def runBlocks (limits : Limits) (s : Session) (blocks : List (List String)) : Session :=
  (blocks.map textOf).foldl (Session.runEntry limits) s

theorem enterAll_of_divides (hlines : ∀ line ∈ lines, Ordinary line) (limits : Limits) (s : Session)
    {blocks : List (List String)} {rest : List String}
    (h : Divides (typedLines lines) blocks rest) :
    enterAll limits { session := s } lines = holding (runBlocks limits s blocks) rest := by
  have hgathered := enterAll_holding hlines limits s []
  rw [h.foldl_gather] at hgathered
  rw [runBlocks, List.foldl_map]
  exact hgathered

/-! ## Between two lines -/

/-- What holds between two lines. -/
structure AtRest (p : Prompt) : Prop where
  clean : p.session.Clean
  pending : p.pending = "" ∨ isUnfinished p.pending = true
  /-- The mark shows whether an entry is pending. -/
  mark : p.mark = if p.pending = "" then firstMark else nextMark

theorem AtRest.start (h : s.Clean) : AtRest { session := s } := ⟨h, .inl rfl, rfl⟩

/-- **A line keeps the prompt at rest.** Submitting it sets the pending text
and the mark one by one, each in both cases. -/
theorem AtRest.submit (hp : p.AtRest) (limits : Limits) (line : String) :
    AtRest (p.submit limits line) := by
  by_cases hopen : isUnfinished (p.pending ++ line ++ "\n") = true
  · have hsource : p.pending ++ line ++ "\n" ≠ "" := by simp
    rw [submit_of_unfinished limits hopen]
    exact ⟨hp.clean, .inr hopen, (if_neg hsource).symm⟩
  · rw [submit_of_finished limits hopen]
    exact ⟨clean_runEntry .., .inl rfl, rfl⟩

theorem AtRest.enter (hp : p.AtRest) (h : Ordinary line) : AtRest (p.enter limits line).2 := by
  rw [enter_of_ordinary h]
  split
  · exact hp
  · exact hp.submit limits _

theorem AtRest.enterAll (hp : p.AtRest) (hlines : ∀ line ∈ lines, Ordinary line) :
    AtRest (p.enterAll limits lines) := by
  induction lines generalizing p with
  | nil => exact hp
  | cons line rest ih =>
    obtain ⟨hline, hrest⟩ := List.forall_mem_cons.1 hlines
    exact ih (hp.enter hline) hrest

theorem AtRest.mark_eq_first (hp : p.AtRest) : p.mark = "> " ↔ p.pending = "" := by
  rw [hp.mark]
  split <;> simp_all [firstMark, nextMark]

theorem AtRest.mark_eq_next (hp : p.AtRest) : p.mark = ". " ↔ p.pending ≠ "" := by
  rw [hp.mark]
  split <;> simp_all [firstMark, nextMark]

/-! ## What lines show -/

/-- What the lines of a conversation show: each line adds a text to what is
printed, and a text to what is reported. -/
inductive Shows (limits : Limits) : Prompt → List String → List (String × String) → Prop
  | nil (p : Prompt) : Shows limits p [] []
  | cons {p q : Prompt} {line printed reported : String} {lines : List String}
      {texts : List (String × String)} :
      (p.enter limits line).2 = q →
      q.session.output = p.session.output ++ printed →
      q.session.errorOutput = p.session.errorOutput ++ reported →
      Shows limits q lines texts →
      Shows limits p (line :: lines) ((printed, reported) :: texts)

theorem Shows.length {texts : List (String × String)} (h : Shows limits p lines texts) :
    texts.length = lines.length := by
  induction h with
  | nil => rfl
  | cons _ _ _ _ ih => simp [ih]

theorem Shows.append {first second : List String} {texts texts' : List (String × String)}
    (h : Shows limits p first texts) (h' : Shows limits (p.enterAll limits first) second texts') :
    Shows limits p (first ++ second) (texts ++ texts') := by
  induction h with
  | nil => exact h'
  | cons henter hout herr _ ih =>
    subst henter
    exact .cons rfl hout herr (ih h')

/-- The prompt with another error text. -/
def withErrorOutput (p : Prompt) (text : String) : Prompt :=
  { p with session := p.session.withErrorOutput text }

/-- A line shows the same, and leads on to the same, whatever has been
reported before. -/
theorem exists_added (h : Ordinary line) (limits : Limits) (p : Prompt) :
    ∃ q : Prompt, ∃ printed reported : String, q.session.output = p.session.output ++ printed ∧
      ∀ text, ((p.withErrorOutput text).enter limits line).2 =
        q.withErrorOutput (text ++ reported) := by
  simp only [enter_of_ordinary h]
  split
  · exact ⟨p, "", "", by simp, by simp⟩
  · let source := p.pending ++ trimmed line ++ "\n"
    by_cases hopen : isUnfinished source = true
    · refine ⟨⟨p.session, source, nextMark⟩, "", "", by simp, fun text => ?_⟩
      rw [String.append_empty]
      exact submit_of_unfinished (p := p.withErrorOutput text) limits hopen
    · obtain ⟨printed, hprinted⟩ := later_run limits p.session source
      refine ⟨⟨p.session.runEntry limits source, "", firstMark⟩, printed,
        p.session.diagnostics.lines (p.session.reports limits source), hprinted, fun text => ?_⟩
      rw [submit_of_finished (p := p.withErrorOutput text) limits hopen]
      exact congrArg (Prompt.mk · "" firstMark)
        (runEntry_withErrorOutput limits p.session source text)

/-- **What lines show does not depend on what has been reported before.** -/
theorem exists_shows (hlines : ∀ line ∈ lines, Ordinary line) (limits : Limits) (p : Prompt) :
    ∃ texts, ∀ text, Shows limits (p.withErrorOutput text) lines texts := by
  induction lines generalizing p with
  | nil => exact ⟨[], fun _ => .nil _⟩
  | cons line rest ih =>
    obtain ⟨hline, hrest⟩ := List.forall_mem_cons.1 hlines
    obtain ⟨q, printed, reported, hprinted, henter⟩ := exists_added hline limits p
    obtain ⟨texts, htexts⟩ := ih hrest q
    exact ⟨(printed, reported) :: texts, fun text => .cons (henter text) hprinted rfl (htexts _)⟩

/-! ## Blank lines -/

theorem ordinary_of_blank (h : trimmed line = "") : Ordinary line := by
  have hnil : Text.trim line.toList = [] := by simpa [trimmed] using h
  exact ⟨by simp [hnil], by simp [leadingWord, hnil]⟩

theorem enter_of_blank (h : trimmed line = "") (p : Prompt) : p.enter limits line = (false, p) := by
  rw [enter_of_ordinary (ordinary_of_blank h), if_pos h]

theorem enterAll_of_blank (h : ∀ line ∈ lines, trimmed line = "") (p : Prompt) :
    p.enterAll limits lines = p := by
  induction lines with
  | nil => rfl
  | cons line rest ih =>
    obtain ⟨hline, hrest⟩ := List.forall_mem_cons.1 h
    rw [enterAll_cons, enter_of_blank hline, ih hrest]

theorem shows_of_blank (h : ∀ line ∈ lines, trimmed line = "") (p : Prompt) :
    Shows limits p lines (lines.map fun _ => ("", "")) := by
  induction lines with
  | nil => exact .nil p
  | cons line rest ih =>
    obtain ⟨hline, hrest⟩ := List.forall_mem_cons.1 h
    have hsame : (p.enter limits line).2 = p := by rw [enter_of_blank hline]
    exact .cons hsame String.append_empty.symm String.append_empty.symm (ih hrest)

/-! ## Entries with errors -/

variable {before entry after kept : List String} {blocks : List (List String)}

/-- **An entry that is not accepted shows only in its own lines.** Whether it
was there makes no difference to what the lines around it show. -/
theorem exists_shows_without (hclean : s.Clean)
    (hlines : ∀ line ∈ before ++ entry ++ after, Ordinary line)
    (hbefore : Divides (typedLines before) blocks []) (hentry : IsEntry (typedLines entry))
    (hfaulty : ¬ Accepts limits (textOf (typedLines entry)))
    (hkept : ∀ line ∈ kept, trimmed line = "") :
    ∃ shown own later, shown.length = before.length ∧ own.length = entry.length ∧
      Shows limits { session := s } (before ++ entry ++ after) (shown ++ own ++ later) ∧
      Shows limits { session := s } (before ++ kept ++ after)
        (shown ++ kept.map (fun _ => ("", "")) ++ later) := by
  obtain ⟨hlines, hafter⟩ := List.forall_mem_append.1 hlines
  obtain ⟨hlines, hordinary⟩ := List.forall_mem_append.1 hlines
  obtain ⟨shown, hshown⟩ := exists_shows hlines limits { session := s }
  have hstart := enterAll_of_divides hlines limits s hbefore
  have hrest : AtRest (enterAll limits { session := s } before) :=
    (AtRest.start hclean).enterAll hlines
  rw [hstart] at hrest
  generalize runBlocks limits s blocks = t at hstart hrest
  -- the entry leaves the same session behind, but for the text of its reports
  have hend := (enterAll_of_divides hordinary limits t hentry.divides).trans
    (congrArg (holding · []) (runEntry_of_not_accepts hrest.clean hfaulty))
  obtain ⟨own, hown⟩ := exists_shows hordinary limits (holding t [])
  obtain ⟨later, hlater⟩ := exists_shows hafter limits (holding t [])
  have hfirst : Shows limits { session := s } before shown := hshown s.errorOutput
  have hsecond : Shows limits (holding t []) entry own := hown t.errorOutput
  refine ⟨shown, own, later, hfirst.length, hsecond.length, ?_, ?_⟩
  · refine (hfirst.append (hstart ▸ hsecond)).append ?_
    rw [enterAll_append, hstart]
    exact hend ▸ hlater _
  · refine (hfirst.append (shows_of_blank hkept _)).append ?_
    rw [enterAll_append, hstart, enterAll_of_blank hkept]
    exact hlater t.errorOutput

/-! ## Whole conversations -/

/-- **A conversation runs the entries that its lines make up.** Take lines
that are no commands, from the start of a session on. Behind each of them:
- the lines typed so far can be cut into entries and a rest, in one way only.
  The session has run the texts of these entries, in order, each on a clean
  record, and the text of the rest is pending;
- the pending text is empty or unfinished, and the mark that is set shows
  which;
- no stop has been asked for, neither flag is set, and the exit code is 0.

If one of the entries has an error in its source and its lines are left out,
with or without the blank lines between them, then all the other lines print
and report what they did. -/
theorem conversation_runs_entries (limits : Limits) (colored : Bool) (clock : ℕ → Float)
    (painter : Painter) (lines : List String) (hlines : ∀ line ∈ lines, Ordinary line) :
    let fresh : Prompt := { session := .start colored clock painter }
    (∀ taken, taken <+: lines →
      let p := fresh.enterAll limits taken
      (∃ blocks rest, Divides (typedLines taken) blocks rest ∧
        (∀ blocks' rest', Divides (typedLines taken) blocks' rest' →
          blocks' = blocks ∧ rest' = rest) ∧
        p.session = (blocks.map textOf).foldl (Session.runEntry limits) fresh.session ∧
        p.pending = textOf rest) ∧
      (p.pending = "" ∨ isUnfinished p.pending = true) ∧
      (p.mark = "> " ↔ p.pending = "") ∧ (p.mark = ". " ↔ p.pending ≠ "") ∧
      p.session.diagnostics.syntaxFailed = false ∧ p.session.diagnostics.runFailed = false ∧
      p.session.exitCode = 0) ∧
    (∀ taken line, taken ++ [line] <+: lines →
      ((fresh.enterAll limits taken).enter limits line).1 = false) ∧
    ∀ before entry after kept blocks, lines = before ++ entry ++ after →
      Divides (typedLines before) blocks [] → IsEntry (typedLines entry) →
      ¬ Accepts limits (textOf (typedLines entry)) → (∀ line ∈ kept, trimmed line = "") →
      ∃ shown own later, shown.length = before.length ∧ own.length = entry.length ∧
        Shows limits fresh (before ++ entry ++ after) (shown ++ own ++ later) ∧
        Shows limits fresh (before ++ kept ++ after)
          (shown ++ kept.map (fun _ => ("", "")) ++ later) := by
  intro fresh
  have hclean : fresh.session.Clean := ⟨rfl, rfl, rfl⟩
  refine ⟨fun taken htaken => ?_, fun taken line htaken => ?_, ?_⟩
  · have hordinary : ∀ line ∈ taken, Ordinary line := fun line hline =>
      hlines line (htaken.subset hline)
    obtain ⟨blocks, rest, hdivides⟩ := exists_divides (typedLines taken)
    have hprompt := enterAll_of_divides hordinary limits fresh.session hdivides
    have hrest : AtRest (fresh.enterAll limits taken) :=
      (AtRest.start hclean).enterAll hordinary
    refine ⟨⟨blocks, rest, hdivides, fun _ _ h => hdivides.unique h,
      congrArg Prompt.session hprompt, congrArg Prompt.pending hprompt⟩, hrest.pending,
      hrest.mark_eq_first, hrest.mark_eq_next, hrest.clean.accepted, hrest.clean.succeeded,
      hrest.clean.exitCode⟩
  · rw [enter_of_ordinary (hlines line (htaken.subset (by simp)))]
  · rintro before entry after kept blocks rfl hbefore hentry hfaulty hkept
    exact exists_shows_without hclean hlines hbefore hentry hfaulty hkept

/-- An entry over two lines, with a blank one between them. -/
def braced : List String := ["  \x7b print nil;", "", "\x7d"]

/-- An entry with an error in its second line. -/
def spoilt : List String := ["print (nil", "  ", "nil);"]

/-- Two entries of one line, the first of them with an error. -/
def separate : List String := ["!print true;", "print false;"]

/-- The spoilt entry leaves nothing behind: the lines around it show the same
with one blank line in its place. -/
theorem spoilt_leaves_nothing :
    let fresh : Prompt := { session := .start false fun _ => 0 }
    (∀ line ∈ braced ++ spoilt ++ separate, Ordinary line) ∧
      (fresh.enterAll ⟨40, 8⟩ (braced ++ ["print (nil"])).mark = ". " ∧
      (fresh.enterAll ⟨40, 8⟩ (braced ++ spoilt)).session.exitCode = 0 ∧
      (fresh.enterAll ⟨40, 8⟩ (braced ++ spoilt ++ separate)).session.output = "nil\nfalse\n" ∧
      ∃ shown own later, shown.length = 3 ∧ own.length = 3 ∧
        Shows ⟨40, 8⟩ fresh (braced ++ spoilt ++ separate) (shown ++ own ++ later) ∧
        Shows ⟨40, 8⟩ fresh (braced ++ ["  "] ++ separate) (shown ++ [("", "")] ++ later) := by
  intro fresh
  have hlines : ∀ line ∈ braced ++ spoilt ++ separate, Ordinary line := by decide +kernel
  obtain ⟨hstates, -, hwithout⟩ :=
    conversation_runs_entries ⟨40, 8⟩ false (fun _ => 0) .terminal _ hlines
  obtain ⟨-, -, -, hmark, -⟩ := hstates (braced ++ ["print (nil"]) (by decide)
  obtain ⟨-, -, -, -, -, -, hcode⟩ := hstates (braced ++ spoilt) (List.prefix_append ..)
  refine ⟨hlines, hmark.2 (by decide +kernel), hcode, by decide +kernel, ?_⟩
  exact hwithout braced spoilt separate ["  "] [["\x7b print nil;", "\x7d"]] rfl
    (by decide +kernel) (by decide +kernel) (by decide +kernel) (by decide +kernel)

end Prompt

end Treewalk
