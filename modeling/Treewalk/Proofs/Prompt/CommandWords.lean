import Mathlib.Data.List.DropRight
import Treewalk.Proofs.Prompt.Conversation
import Treewalk.Proofs.Token.Rescanning

/-!
# Command words that are no commands

A line that starts with the word of a command is submitted all the same if
something follows the word, or if an entry is pending. What is submitted is
the word, one space, and what follows, and not the line as it was typed: the
blanks behind the word are lost. Where a text is scanned, spaces, tabs and
carriage returns behind a word make no difference, so the line is run as
typed. Inside a string that an earlier line has opened they do, and so do
those blanks that scanning knows nothing of.

Two prompts that no further line can tell apart are `Alike`. One lemma says
what a line can do (`exists_reaction`), and from it follows that prompts that
are alike stay so.
-/

namespace Treewalk

/-! ## Texts that scan alike -/

namespace Segment

/-- A word is cut off whole in front of whatever cannot go on with it. -/
theorem pieces_word {c : Char} {tail rest : List Char} (hc : isLetter c)
    (htail : ∀ d ∈ tail, isWordChar d) (hrest : ∀ d ∈ rest.head?, isWordChar d = false) :
    pieces (c :: tail ++ rest) =
      token (.ofWord (String.ofList (c :: tail))) (c :: tail) :: pieces rest := by
  have hword : isWordChar c := by simp [isWordChar, hc]
  have hend : rest.takeWhile isWordChar = [] ∧ rest.dropWhile isWordChar = rest := by
    cases rest with
    | nil => exact ⟨rfl, rfl⟩
    | cons d rest => simp [hrest d rfl]
  rw [List.cons_append, pieces_cons, first_of_isWordChar hword,
    if_neg (by simp [isDigit_of_isLetter hc]), word, List.takeWhile_append_of_pos htail,
    List.dropWhile_append_of_pos htail, hend.1, hend.2, List.append_nil]

/-- Blanks, as far as scanning goes. -/
def Blanks (gap : List Char) : Prop := ∀ c ∈ gap, c = ' ' ∨ c = '\t' ∨ c = '\r'

theorem Blanks.isLayout {gap : List Char} (h : Blanks gap) : ∀ c ∈ gap, isLayout c := by
  intro c hc
  rcases h c hc with rfl | rfl | rfl <;> rfl

/-- Blanks add nothing to what scanning finds. -/
theorem Blanks.silent {gap : List Char} (h : Blanks gap) (line : ℕ) :
    tokensFrom line (gap.map ofLayout) = [] ∧ errorsFrom line (gap.map ofLayout) = [] ∧
      newlinesIn (gap.map ofLayout) = 0 := by
  induction gap with
  | nil => exact ⟨rfl, rfl, rfl⟩
  | cons c gap ih =>
    obtain ⟨hc, hgap⟩ := List.forall_mem_cons.1 h
    obtain ⟨htokens, herrors, hlines⟩ := ih hgap
    have hblank : ofLayout c = blank c ∧ (blank c).newlines = 0 := by
      rcases hc with rfl | rfl | rfl <;> exact ⟨rfl, rfl⟩
    rw [List.map_cons, hblank.1, tokensFrom, errorsFrom, newlinesIn_cons, hblank.2, Nat.add_zero,
      htokens, herrors, hlines]
    exact ⟨rfl, rfl, rfl⟩

/-- Nor do they between other segments. -/
theorem Blanks.between {gap : List Char} (h : Blanks gap) (line : ℕ) (front back : List Segment) :
    tokensFrom line (front ++ (gap.map ofLayout ++ back)) = tokensFrom line (front ++ back) ∧
      errorsFrom line (front ++ (gap.map ofLayout ++ back)) = errorsFrom line (front ++ back) ∧
      newlinesIn (front ++ (gap.map ofLayout ++ back)) = newlinesIn (front ++ back) := by
  obtain ⟨htokens, herrors, hlines⟩ := h.silent (line + newlinesIn front)
  have hsum : ∀ segments others, newlinesIn (segments ++ others) =
      newlinesIn segments + newlinesIn others := fun segments others => by simp [newlinesIn]
  simp only [tokensFrom_append, errorsFrom_append, hsum, htokens, herrors, hlines, List.nil_append,
    Nat.add_zero, Nat.zero_add, and_self]

end Segment

open Segment

/-- Scanning depends on what the segments contribute, and on nothing else. -/
theorem scan_congr {a b : String}
    (htokens : tokensFrom 1 (pieces a.toList) = tokensFrom 1 (pieces b.toList))
    (herrors : errorsFrom 1 (pieces a.toList) = errorsFrom 1 (pieces b.toList))
    (hlines : newlinesIn (pieces a.toList) = newlinesIn (pieces b.toList)) : scan a = scan b := by
  have hline : ∀ source, (scan source).line = 1 + newlinesIn (pieces source.toList) := by
    intro source
    rw [scan, Scan.finish, ← Array.foldl_toList, Scan.line_foldl_add]
    rfl
  have hext : ∀ s t : Scan,
      s.line = t.line → s.tokens = t.tokens → s.errors = t.errors → s = t := by
    rintro ⟨⟩ ⟨⟩ rfl rfl rfl
    rfl
  apply hext
  · rw [hline, hline, hlines]
  · apply Array.toList_inj.1
    rw [tokens_scan, tokens_scan, htokens, hlines]
  · apply Array.toList_inj.1
    rw [errors_scan, errors_scan, herrors]

/-- **Where no string is open**, the segments of a text that ends with a line
end are followed by those of what comes behind it. -/
theorem pieces_append_of_closed {before : String} (hclosed : Closed before)
    (hends : before = "" ∨ ∃ text, before = text ++ "\n") (cs : List Char) :
    pieces (before.toList ++ cs) = pieces before.toList ++ pieces cs := by
  rcases hends with rfl | ⟨text, rfl⟩
  · simp
  · have hlist : (text ++ "\n").toList = text.toList ++ ['\n'] := by simp
    rw [closed_iff, hlist] at hclosed
    have htext := closed_of_append_newline _ _ le_rfl hclosed
    rw [hlist, pieces_append_newline _ _ le_rfl htext, List.append_assoc, List.singleton_append,
      pieces_append_newline _ _ le_rfl htext]
    simp

/-- **Blanks behind a word make no difference** where no string is open,
whatever follows them. -/
theorem scan_word_gap {before word : String} {gap gap' rest : List Char}
    (hclosed : Closed before) (hends : before = "" ∨ ∃ text, before = text ++ "\n")
    (hword : ∃ c tail, word.toList = c :: tail ∧ isLetter c ∧ ∀ d ∈ tail, isWordChar d)
    (hgap : Blanks gap) (hgap' : Blanks gap')
    (hend : ∀ d ∈ (gap ++ rest).head?, isWordChar d = false)
    (hend' : ∀ d ∈ (gap' ++ rest).head?, isWordChar d = false) :
    scan (before ++ word ++ String.ofList (gap ++ rest)) =
      scan (before ++ word ++ String.ofList (gap' ++ rest)) := by
  obtain ⟨c, tail, htext, hc, htail⟩ := hword
  have hpieces : ∀ {gap}, Blanks gap → (∀ d ∈ (gap ++ rest).head?, isWordChar d = false) →
      pieces (before ++ word ++ String.ofList (gap ++ rest)).toList =
        (pieces before.toList ++ [token (.ofWord (String.ofList (c :: tail))) (c :: tail)]) ++
          (gap.map ofLayout ++ pieces rest) := by
    intro gap hgap hend
    rw [String.toList_append, String.toList_append, String.toList_ofList, List.append_assoc,
      pieces_append_of_closed hclosed hends, htext, pieces_word hc htail hend,
      pieces_layout hgap.isLayout, List.append_assoc]
    rfl
  obtain ⟨htokens, herrors, hlines⟩ := hgap.between 1 (pieces before.toList ++
    [token (.ofWord (String.ofList (c :: tail))) (c :: tail)]) (pieces rest)
  obtain ⟨htokens', herrors', hlines'⟩ := hgap'.between 1 (pieces before.toList ++
    [token (.ofWord (String.ofList (c :: tail))) (c :: tail)]) (pieces rest)
  apply scan_congr
  · rw [hpieces hgap hend, hpieces hgap' hend', htokens, htokens']
  · rw [hpieces hgap hend, hpieces hgap' hend', herrors, herrors']
  · rw [hpieces hgap hend, hpieces hgap' hend', hlines, hlines']

/-! ## Prompts that are alike -/

theorem Session.run_congr {source other : String} (h : scan source = scan other) (limits : Limits)
    (s : Session) : s.run limits source = s.run limits other := by
  rw [Session.run, Session.run, Session.runBy, Session.runBy, h]

namespace Prompt

variable {limits : Limits} {p q : Prompt}

theorem isUnfinished_congr {source other : String} (h : scan source = scan other) :
    isUnfinished source = isUnfinished other := by
  rw [isUnfinished, isUnfinished, h]

/-- Two prompts that no line can tell apart: the sessions and the marks are
the same, and the pending texts scan alike, whatever is added to them. -/
structure Alike (p q : Prompt) : Prop where
  session : p.session = q.session
  mark : p.mark = q.mark
  idle : p.pending = "" ↔ q.pending = ""
  scans : ∀ tail, scan (p.pending ++ tail) = scan (q.pending ++ tail)

theorem alike_refl (p : Prompt) : Alike p p := ⟨rfl, rfl, .rfl, fun _ => rfl⟩

/-- Lines that scan alike behind the pending texts lead to prompts that are
alike. -/
theorem alike_submit {line other : String} (hsession : p.session = q.session)
    (hscans : ∀ tail, scan (p.pending ++ line ++ "\n" ++ tail) =
      scan (q.pending ++ other ++ "\n" ++ tail)) :
    Alike (p.submit limits line) (q.submit limits other) := by
  have hsame : scan (p.pending ++ line ++ "\n") = scan (q.pending ++ other ++ "\n") := by
    simpa using hscans ""
  unfold submit
  simp only [isUnfinished_congr hsame, Session.run_congr hsame, hsession]
  split
  · exact ⟨rfl, rfl, by simp, hscans⟩
  · exact alike_refl _

/-- What a line makes a prompt do. -/
inductive Reaction where
  /-- Nothing, or stop. -/
  | rest (stop : Bool)
  /-- Print a text, and stop or not. -/
  | say (stop : Bool) (text : String)
  /-- Submit a line. -/
  | submit (line : String)

/-- Does what a line asks for. -/
def react (limits : Limits) (p : Prompt) : Reaction → Bool × Prompt
  | .rest stop => (stop, p)
  | .say stop text => (stop, p.say text)
  | .submit line => (false, p.submit limits line)

theorem exists_reaction_obey (command : Command) (argument : String) (idle : Bool) :
    ∃ reaction, ∀ (limits : Limits) (p : Prompt), p.pending.isEmpty = idle →
      p.obey limits command argument = p.react limits reaction := by
  let line := command.word ++ " " ++ argument
  cases command with
  | help =>
    refine ⟨if argument.isEmpty && idle then .say false helpText else .submit line, ?_⟩
    rintro limits p rfl
    rw [obey]
    split <;> rfl
  | exit =>
    refine ⟨if argument.isEmpty && idle then .rest true else .submit line, ?_⟩
    rintro limits p rfl
    rw [obey]
    split <;> rfl
  | close =>
    refine ⟨if argument.isEmpty then .say true "\n" else .submit line, fun limits p _ => ?_⟩
    rw [obey]
    split <;> rfl

theorem exists_reaction_interpret (line : List Char) (idle : Bool) :
    ∃ reaction, ∀ (limits : Limits) (p : Prompt), p.pending.isEmpty = idle →
      p.interpret limits line = p.react limits reaction := by
  simp only [interpret]
  cases Command.ofWord? (String.ofList (line.takeWhile isWordChar)) with
  | none => exact ⟨.submit (String.ofList line), fun limits p _ => rfl⟩
  | some command => exact exists_reaction_obey command _ idle

/-- **What a line can do**: it depends on the line, and on whether an entry is
pending. -/
theorem exists_reaction (line : String) (idle : Bool) : ∃ reaction, ∀ (limits : Limits)
    (p : Prompt), p.pending.isEmpty = idle → p.enter limits line = p.react limits reaction := by
  unfold enter
  split
  · exact ⟨.rest false, fun limits p _ => rfl⟩
  · exact exists_reaction_interpret _ idle
  · exact ⟨.submit _, fun limits p _ => rfl⟩
  · exact exists_reaction_interpret _ idle

theorem Alike.react (h : Alike p q) (limits : Limits) (reaction : Reaction) :
    (p.react limits reaction).1 = (q.react limits reaction).1 ∧
      Alike (p.react limits reaction).2 (q.react limits reaction).2 := by
  cases reaction with
  | rest stop => exact ⟨rfl, h⟩
  | say stop text => exact ⟨rfl, congrArg (Session.say · text) h.session, h.mark, h.idle, h.scans⟩
  | submit line =>
    refine ⟨rfl, alike_submit h.session fun tail => ?_⟩
    simpa only [String.append_assoc] using h.scans (line ++ ("\n" ++ tail))

/-- **Prompts that are alike stay so**, and stop at the same lines. -/
theorem Alike.enter (h : Alike p q) (limits : Limits) (line : String) :
    (p.enter limits line).1 = (q.enter limits line).1 ∧
      Alike (p.enter limits line).2 (q.enter limits line).2 := by
  have hidle : q.pending.isEmpty = p.pending.isEmpty := by
    rw [Bool.eq_iff_iff, String.isEmpty_iff, String.isEmpty_iff]
    exact h.idle.symm
  obtain ⟨reaction, hreaction⟩ := exists_reaction line p.pending.isEmpty
  rw [hreaction limits p rfl, hreaction limits q hidle]
  exact h.react limits reaction

theorem Alike.enterAll (h : Alike p q) (limits : Limits) (lines : List String) :
    Alike (p.enterAll limits lines) (q.enterAll limits lines) := by
  induction lines generalizing p q with
  | nil => exact h
  | cons line rest ih => exact ih (h.enter limits line).2

/-! ## Lines with the word of a command -/

/-- What follows the first word of a line, without the blanks around it. -/
def argument (line : String) : String :=
  String.ofList (Text.trim ((Text.trim line.toList).dropWhile isWordChar))

/-- The blanks between the first word of a line and what follows it. -/
def gap (line : String) : List Char :=
  ((Text.trim line.toList).dropWhile isWordChar).takeWhile Text.isBlank

/-- A line that starts with the word of a command and is not taken as one. -/
structure Passed (p : Prompt) (line : String) : Prop where
  word : leadingWord line ∈ ["help", "exit", "EOF"]
  used : argument line ≠ "" ∨ leadingWord line ≠ "EOF" ∧ p.pending ≠ ""

instance {line : String} : Decidable (Passed p line) :=
  decidable_of_iff _ ⟨fun h => Passed.mk h.1 h.2, fun h => And.intro h.word h.used⟩

theorem trim_eq_rdropWhile (cs : List Char) :
    Text.trim cs = (cs.dropWhile Text.isBlank).rdropWhile Text.isBlank := rfl

/-- What stands at the end of a trimmed text is trimmed but for its front. -/
theorem trim_of_suffix {cs part : List Char} (h : part <:+ Text.trim cs) :
    Text.trim part = part.dropWhile Text.isBlank := by
  rw [trim_eq_rdropWhile, List.rdropWhile_eq_self_iff]
  intro hne
  have hsuffix : part.dropWhile Text.isBlank <:+ Text.trim cs :=
    (List.dropWhile_suffix _).trans h
  rw [hsuffix.getLast hne]
  exact List.rdropWhile_last_not _ _ _

theorem gap_append_argument (line : String) :
    gap line ++ (argument line).toList = (Text.trim line.toList).dropWhile isWordChar := by
  rw [gap, argument, String.toList_ofList, trim_of_suffix (List.dropWhile_suffix _),
    List.takeWhile_append_dropWhile]

/-- A line is its first word, the blanks behind it, and what follows them. -/
theorem trimmed_eq (line : String) :
    trimmed line = leadingWord line ++ (String.ofList (gap line) ++ argument line) := by
  rw [← String.toList_inj]
  simp [trimmed, leadingWord, gap_append_argument]

/-- The spelling of each command stands for it. -/
theorem Command.ofWord?_word (command : Command) : Command.ofWord? command.word = some command := by
  cases command <;> decide

/-- A line that starts with the word of a command is handed to it. -/
theorem enter_of_word {line : String} {command : Command} (h : leadingWord line = command.word)
    (limits : Limits) (p : Prompt) :
    p.enter limits line = p.obey limits command (argument line) := by
  have hne : command.word ≠ "" := by cases command <;> decide
  have hword : ∀ c rest, isWordChar c = false → Text.trim line.toList ≠ c :: rest := by
    intro c rest hc htrim
    rw [leadingWord, htrim, List.takeWhile_cons_of_neg (by simp [hc])] at h
    exact hne h.symm
  unfold enter
  split
  · rename_i htrim
    rw [leadingWord, htrim] at h
    exact absurd h.symm hne
  · exact absurd ‹_› (hword '?' _ rfl)
  · exact absurd ‹_› (hword '!' _ rfl)
  · have hcommand : Command.ofWord? (leadingWord line) = some command := by
      rw [h, Command.ofWord?_word]
    rw [leadingWord] at hcommand
    simp only [interpret, hcommand]
    rfl

/-- The command whose word a line starts with. -/
theorem Passed.exists_command {line : String} (h : Passed p line) :
    ∃ command : Command, leadingWord line = command.word := by
  have hword := h.word
  simp only [List.mem_cons, List.not_mem_nil, or_false] at hword
  rcases hword with hword | hword | hword
  · exact ⟨.help, hword⟩
  · exact ⟨.exit, hword⟩
  · exact ⟨.close, hword⟩

/-- **A line that is not taken as a command** is submitted with one space
behind its first word. -/
theorem enter_of_passed {line : String} (h : Passed p line) (limits : Limits) :
    p.enter limits line =
      (false, p.submit limits (leadingWord line ++ " " ++ argument line)) := by
  obtain ⟨command, hcommand⟩ := h.exists_command
  have hused := h.used
  rw [hcommand] at hused
  rw [enter_of_word hcommand, hcommand]
  -- the line fails the test that the command makes
  cases command with
  | help | exit =>
    have hnot : ((argument line).isEmpty && p.pending.isEmpty) = false := by
      rcases hused with hused | ⟨-, hused⟩ <;> simp [hused]
    rw [obey, hnot]
    rfl
  | close =>
    have hnot : (argument line).isEmpty = false := by
      simpa [Command.word] using hused
    rw [obey, hnot]
    rfl

/-! ## Where the blanks behind the word do not count -/

/-- The pending text is empty or ends with a line end. -/
def EndsLine (p : Prompt) : Prop := p.pending = "" ∨ ∃ text, p.pending = text ++ "\n"

theorem EndsLine.react (h : p.EndsLine) (limits : Limits) (reaction : Reaction) :
    EndsLine (p.react limits reaction).2 := by
  cases reaction with
  | rest stop => exact h
  | say stop text => exact h
  | submit line =>
    simp only [Prompt.react, submit]
    split
    · exact .inr ⟨_, rfl⟩
    · exact .inl rfl

theorem EndsLine.enterAll (h : p.EndsLine) (limits : Limits) (lines : List String) :
    EndsLine (p.enterAll limits lines) := by
  induction lines generalizing p with
  | nil => exact h
  | cons line rest ih =>
    obtain ⟨reaction, hreaction⟩ := exists_reaction line p.pending.isEmpty
    rw [enterAll_cons, hreaction limits p rfl]
    exact ih (h.react limits reaction)

/-- A prompt that lines lead to from the start of a session. -/
def Reached (limits : Limits) (p : Prompt) : Prop :=
  ∃ colored clock painter lines,
    p = enterAll limits { session := .start colored clock painter } lines

theorem Reached.endsLine (h : Reached limits p) : p.EndsLine := by
  obtain ⟨colored, clock, painter, lines, rfl⟩ := h
  exact EndsLine.enterAll (.inl rfl) limits lines

/-- The blanks behind the first word of a line do not count: there is just
one space, or no string is open and scanning passes over them. -/
def Harmless (p : Prompt) (line : String) : Prop :=
  gap line = [' '] ∨ Closed p.pending ∧ Blanks (gap line)

theorem Command.exists_letters (command : Command) : ∃ c tail, command.word.toList = c :: tail ∧
    isLetter c ∧ ∀ d ∈ tail, isWordChar d := by
  cases command with
  | help => exact ⟨'h', ['e', 'l', 'p'], by simp [word], by decide, by simp [isWordChar, isLetter]⟩
  | exit => exact ⟨'e', ['x', 'i', 't'], by simp [word], by decide, by simp [isWordChar, isLetter]⟩
  | close => exact ⟨'E', ['O', 'F'], by simp [word], by decide, by simp [isWordChar, isLetter]⟩

/-- **Where they do not count**, submitting the line with one space in their
place is as good as submitting it as it was typed. -/
theorem Passed.alike {line : String} (h : Passed p line) (hends : p.EndsLine)
    (hharmless : Harmless p line) (limits : Limits) :
    Alike (p.submit limits (leadingWord line ++ " " ++ argument line))
      (p.submit limits (trimmed line)) := by
  have hone : leadingWord line ++ " " ++ argument line =
      leadingWord line ++ (String.ofList [' '] ++ argument line) := String.append_assoc
  rw [trimmed_eq, hone]
  rcases hharmless with hspace | ⟨hclosed, hblanks⟩
  · rw [hspace]
    exact alike_refl _
  · obtain ⟨command, hcommand⟩ := h.exists_command
    refine alike_submit rfl fun tail => ?_
    have hspace : Blanks [' '] := List.forall_mem_singleton.2 (.inl rfl)
    have hspaced : ∀ d ∈ ([' '] ++ ((argument line).toList ++ '\n' :: tail.toList)).head?,
        isWordChar d = false := by
      rintro d ⟨⟩
      rfl
    have htyped : ∀ d ∈ (gap line ++ ((argument line).toList ++ '\n' :: tail.toList)).head?,
        isWordChar d = false := by
      rw [← List.append_assoc, gap_append_argument]
      cases hrest : (Text.trim line.toList).dropWhile isWordChar with
      | nil =>
        rintro d ⟨⟩
        rfl
      | cons e rest =>
        rintro d ⟨⟩
        have hhead := List.head?_dropWhile_not isWordChar (Text.trim line.toList)
        rw [hrest] at hhead
        exact hhead
    have hscan := scan_word_gap hclosed hends (hcommand ▸ command.exists_letters) hspace hblanks
      hspaced htyped
    have htext : ∀ blanks : List Char,
        p.pending ++ leadingWord line ++
          String.ofList (blanks ++ ((argument line).toList ++ '\n' :: tail.toList)) =
        p.pending ++ (leadingWord line ++ (String.ofList blanks ++ argument line)) ++ "\n" ++
          tail := by
      intro blanks
      rw [← String.toList_inj]
      simp
    rwa [htext, htext] at hscan

/-- **Command words that are no commands are run as the text they are, but for
the blanks behind them.** In every prompt that lines lead to, a line that
starts with the word of a command and is not taken as one does not ask to
stop; what is submitted is the word, one space, and what follows. Where the
blanks between the two do not count, this is as good as submitting the line
as it was typed: now, and behind any further lines, the sessions are the same,
with all that is printed, reported and bound in them, and so are the marks;
and any line asks both to stop, or neither. -/
theorem words_submitted_but_blanks {limits : Limits} {p : Prompt} {line : String}
    (hp : Reached limits p) (hline : Passed p line) :
    p.enter limits line = (false, p.submit limits (leadingWord line ++ " " ++ argument line)) ∧
      (Harmless p line → ∀ after : List String,
        let entered := ((p.enter limits line).2).enterAll limits after
        let typed := (p.submit limits (trimmed line)).enterAll limits after
        entered.session = typed.session ∧ entered.mark = typed.mark ∧
          ∀ next, (entered.enter limits next).1 = (typed.enter limits next).1) := by
  have henter := enter_of_passed hline limits
  refine ⟨henter, fun hharmless after => ?_⟩
  have halike : Alike (p.enter limits line).2 (p.submit limits (trimmed line)) := by
    rw [henter]
    exact hline.alike hp.endsLine hharmless limits
  have hafter := halike.enterAll limits after
  exact ⟨hafter.session, hafter.mark, fun next => (hafter.enter limits next).1⟩

/-- A parenthesis stays open, and the word of a command comes on the next
line, with a tab and a space behind it. -/
def awaiting (limits : Limits) : Prompt :=
  enterAll limits { session := .start false fun _ => 0 } ["print ("]

/-- The line goes on with the entry, and is run as it was typed. -/
theorem awaiting_submitted :
    Passed (awaiting ⟨40, 8⟩) "exit\t == nil);" ∧ Harmless (awaiting ⟨40, 8⟩) "exit\t == nil);" ∧
      ((awaiting ⟨40, 8⟩).enter ⟨40, 8⟩ "exit\t == nil);").2.session =
        ((awaiting ⟨40, 8⟩).submit ⟨40, 8⟩ "exit\t == nil);").session := by
  have hreached : Reached ⟨40, 8⟩ (awaiting ⟨40, 8⟩) :=
    ⟨false, fun _ => 0, .terminal, ["print ("], rfl⟩
  have hpassed : Passed (awaiting ⟨40, 8⟩) "exit\t == nil);" := by decide +kernel
  have hgap : gap "exit\t == nil);" = ['\t', ' '] := by decide +kernel
  have hharmless : Harmless (awaiting ⟨40, 8⟩) "exit\t == nil);" :=
    .inr ⟨by decide +kernel, by simp [hgap, Blanks]⟩
  have htrimmed : trimmed "exit\t == nil);" = "exit\t == nil);" := by decide +kernel
  obtain ⟨-, hsame⟩ := words_submitted_but_blanks hreached hpassed
  exact ⟨hpassed, hharmless, htrimmed ▸ (hsame hharmless []).1⟩

/-- **Inside a string the blanks are lost.** A string is opened on one line
and closed on the next, which starts with the word of a command: two of the
three spaces behind the word are not printed. -/
theorem blanks_lost_in_string :
    let p := enterAll ⟨40, 8⟩ { session := .start false fun _ => 0 } ["print (\"a"]
    Reached ⟨40, 8⟩ p ∧ Passed p "help   b\");" ∧
      (p.enter ⟨40, 8⟩ "help   b\");").2.session.output = "a\nhelp b\n" ∧
      (p.submit ⟨40, 8⟩ (trimmed "help   b\");")).session.output = "a\nhelp   b\n" :=
  ⟨⟨false, fun _ => 0, .terminal, ["print (\"a"], rfl⟩, by decide +kernel, by decide +kernel,
    by decide +kernel⟩

end Prompt

end Treewalk
