import Treewalk.Proofs.Grammar.Steps
import Treewalk.Proofs.Token.Lines

/-!
# Scanning joined texts

Layout parts a text cleanly: no token but a string has any inside, a string
reaches only as far as its closing quote, and a comment only to the next line
end. So in two texts with a line end between them the segments are those of
the one, the line end, and those of the other, unless a quote of the first is
never closed. The tokens and the errors of the second text only move down.
-/

namespace Treewalk

/-- The token, some lines further down. -/
def Token.down (n : ℕ) (t : Token) : Token := { t with line := t.line + n }

/-- The error, some lines further down. -/
def SyntaxError.down (n : ℕ) (e : SyntaxError) : SyntaxError := { e with line := e.line + n }

namespace Segment

/-! ## Layout ends what may not contain it -/

/-- A character that stands between tokens: a space, a tab, a carriage return
or a line end. -/
def isLayout (c : Char) : Bool := c = ' ' || c = '\t' || c = '\r' || c = '\n'

theorem isLayout_iff {c : Char} :
    isLayout c ↔ c = ' ' ∨ c = '\t' ∨ c = '\r' ∨ c = '\n' := by
  simp [isLayout, or_assoc]

theorem isWordChar_of_isLayout {c : Char} (h : isLayout c) : isWordChar c = false := by
  rcases isLayout_iff.1 h with rfl | rfl | rfl | rfl <;> decide

theorem isDigit_of_isLayout {c : Char} (h : isLayout c) : Number.isDigit c = false := by
  rcases isLayout_iff.1 h with rfl | rfl | rfl | rfl <;> decide

theorem takeWhile_append_cons {p : Char → Bool} {b : Char} (hb : p b = false)
    (cs tail : List Char) : (cs ++ b :: tail).takeWhile p = cs.takeWhile p := by
  induction cs with
  | nil => simp [hb]
  | cons c cs ih =>
    rw [List.cons_append, List.takeWhile_cons, List.takeWhile_cons, ih]

theorem dropWhile_append_cons {p : Char → Bool} {b : Char} (hb : p b = false)
    (cs tail : List Char) : (cs ++ b :: tail).dropWhile p = cs.dropWhile p ++ b :: tail := by
  induction cs with
  | nil => simp [hb]
  | cons c cs ih =>
    rw [List.cons_append, List.dropWhile_cons, List.dropWhile_cons, ih]
    split <;> rfl

/-- A cut with more text behind it. -/
def followedBy (tail : List Char) (cut : Segment × List Char) : Segment × List Char :=
  (cut.1, cut.2 ++ tail)

section

variable {b : Char} (hb : isLayout b)
include hb

theorem operator_append_layout (c : Char) (kinds : Kind × Kind) (cs tail : List Char) :
    operator c kinds (cs ++ b :: tail) = followedBy (b :: tail) (operator c kinds cs) := by
  rcases cs with _ | ⟨d, cs⟩
  · have hequal : b ≠ '=' := by
      rintro rfl
      cases hb
    simp [operator, hequal, followedBy]
  · by_cases hd : d = '='
    · subst hd
      rfl
    · simp [operator, hd, followedBy]

/-- A comment ends at a line end only. -/
theorem slash_append_layout {cs : List Char}
    (h : b = '\n' ∨ ∀ text, (slash cs).1 ≠ comment text) (tail : List Char) :
    slash (cs ++ b :: tail) = followedBy (b :: tail) (slash cs) := by
  rcases cs with _ | ⟨d, cs⟩
  · have hslash : b ≠ '/' := by
      rintro rfl
      cases hb
    simp [slash, hslash, followedBy]
  · by_cases hd : d = '/'
    · subst hd
      obtain rfl : b = '\n' := h.resolve_right fun hne => hne _ rfl
      simp only [slash, List.cons_append, followedBy]
      rw [takeWhile_append_cons (by decide), dropWhile_append_cons (by decide)]
    · simp [slash, hd, followedBy]

theorem word_append_layout (c : Char) (cs tail : List Char) :
    word c (cs ++ b :: tail) = followedBy (b :: tail) (word c cs) := by
  have hword := isWordChar_of_isLayout hb
  simp only [word, followedBy]
  rw [takeWhile_append_cons hword, dropWhile_append_cons hword]

theorem numeral_append_layout (c : Char) (cs tail : List Char) :
    numeral c (cs ++ b :: tail) = followedBy (b :: tail) (numeral c cs) := by
  have hdigit := isDigit_of_isLayout hb
  unfold numeral
  rw [takeWhile_append_cons hdigit, dropWhile_append_cons hdigit]
  rcases cs.dropWhile Number.isDigit with _ | ⟨d, rest⟩
  · have hpoint : b ≠ '.' := by
      rintro rfl
      cases hb
    simp [hpoint, followedBy]
  · by_cases hd : d = '.'
    · subst hd
      rcases rest with _ | ⟨e, rest⟩
      · -- a point at the end: the layout behind it is no digit
        simp [hdigit, followedBy]
      · simp only [List.cons_append]
        rw [takeWhile_append_cons hdigit, dropWhile_append_cons hdigit]
        split <;> rfl
    · simp [hd, followedBy]

end

/-- A string that is closed keeps its closing quote. -/
theorem quote_append {cs : List Char} (h : (quote cs).1.fault? ≠ some .unterminatedString)
    (tail : List Char) : quote (cs ++ tail) = followedBy tail (quote cs) := by
  obtain ⟨inside, rest, hinside, rfl⟩ :
      ∃ inside rest, '"' ∉ inside ∧ cs = inside ++ '"' :: rest := by
    by_cases hmem : '"' ∈ cs
    · obtain ⟨inside, rest, hcs, hinside⟩ := List.eq_append_cons_of_mem hmem
      exact ⟨inside, rest, hinside, hcs⟩
    · rw [quote_of_open hmem] at h
      exact absurd rfl h
  rw [quote_of_closed hinside, List.append_assoc, List.cons_append, quote_of_closed hinside]
  rfl

/-- **Layout parts a text**: what is cut off first stays the same when a
layout character and more text follow, unless it is a string that is never
closed, or a comment and the character no line end. -/
theorem first_append_layout {b c : Char} {cs : List Char} (hb : isLayout b)
    (hclosed : (first c cs).1.fault? ≠ some .unterminatedString)
    (hcomment : b = '\n' ∨ ∀ text, (first c cs).1 ≠ comment text) (tail : List Char) :
    first c (cs ++ b :: tail) = followedBy (b :: tail) (first c cs) := by
  unfold first at *
  split
  · rfl
  · exact operator_append_layout hb _ _ _ _
  · rename_i hsingle hpaired
    rw [hsingle, hpaired] at hclosed hcomment
    split
    · rename_i hslash
      simp only [hslash, if_true] at hcomment
      exact slash_append_layout hb hcomment tail
    split
    · rfl
    split
    · rfl
    split
    · rename_i hquote
      subst hquote
      exact quote_append hclosed _
    split
    · exact numeral_append_layout hb _ _ _
    split
    · exact word_append_layout hb _ _ _
    · rfl

/-- **Two texts with a line end between them** have the segments of the one,
the line end, and the segments of the other. -/
theorem pieces_append_newline (n : ℕ) : ∀ cs : List Char, cs.length ≤ n →
    (∀ s ∈ pieces cs, s.fault? ≠ some .unterminatedString) → ∀ tail,
      pieces (cs ++ '\n' :: tail) = pieces cs ++ newline :: pieces tail := by
  induction n with
  | zero =>
    intro cs hn _ tail
    obtain rfl := List.length_eq_zero_iff.1 (Nat.le_zero.1 hn)
    rw [List.nil_append, pieces_cons, pieces_nil]
    rfl
  | succ n ih =>
    intro cs hn hclosed tail
    cases cs with
    | nil =>
      rw [List.nil_append, pieces_cons, pieces_nil]
      rfl
    | cons c cs =>
      rw [pieces_cons] at hclosed
      have hle : (first c cs).2.length ≤ n :=
        (length_first_le c cs).trans (Nat.le_of_succ_le_succ hn)
      -- the first segment ends before the line end, which is still to come
      rw [List.cons_append, pieces_cons, pieces_cons,
        first_append_layout rfl (hclosed _ List.mem_cons_self) (.inl rfl), List.cons_append]
      exact congrArg _ (ih _ hle (fun s hs => hclosed s (List.mem_cons_of_mem _ hs)) tail)

/-- A string that is never closed is all there is. -/
theorem eq_of_first_unterminated {c : Char} {cs : List Char}
    (h : (first c cs).1.fault? = some .unterminatedString) : c = '"' ∧ '"' ∉ cs := by
  have hfits := fits_first c cs
  have htext := text_first c cs
  cases hfirst : (first c cs).1 with
  | unterminated text =>
    rw [hfirst] at hfits htext
    obtain ⟨body, hbody, rfl, hrest⟩ := hfits
    rw [hrest, List.append_nil] at htext
    obtain ⟨rfl, rfl⟩ := List.cons.inj htext
    exact ⟨rfl, hbody⟩
  | _ => simp [hfirst, fault?] at h

/-- A line end closes no string. -/
theorem closed_of_append_newline (n : ℕ) : ∀ cs : List Char, cs.length ≤ n →
    (∀ s ∈ pieces (cs ++ ['\n']), s.fault? ≠ some .unterminatedString) →
      ∀ s ∈ pieces cs, s.fault? ≠ some .unterminatedString := by
  induction n with
  | zero =>
    intro cs hn _ s hs
    obtain rfl := List.length_eq_zero_iff.1 (Nat.le_zero.1 hn)
    simp at hs
  | succ n ih =>
    intro cs hn hclosed
    cases cs with
    | nil => simp
    | cons c cs =>
      have hle : (first c cs).2.length ≤ n :=
        (length_first_le c cs).trans (Nat.le_of_succ_le_succ hn)
      rw [List.cons_append, pieces_cons] at hclosed
      have hfirst : (first c cs).1.fault? ≠ some .unterminatedString := by
        intro hopen
        obtain ⟨rfl, hquote⟩ := eq_of_first_unterminated hopen
        have hstill : first '"' (cs ++ ['\n']) = (unterminated ('"' :: (cs ++ ['\n'])), []) :=
          quote_of_open (by simp [hquote])
        rw [hstill] at hclosed
        exact hclosed _ List.mem_cons_self rfl
      rw [first_append_layout rfl hfirst (.inl rfl)] at hclosed
      rw [pieces_cons]
      exact List.forall_mem_cons.2 ⟨hfirst, ih _ hle (List.forall_mem_cons.1 hclosed).2⟩

/-! ## Tokens and errors -/

theorem tokensFrom_append (line : ℕ) (segments others : List Segment) :
    tokensFrom line (segments ++ others) =
      tokensFrom line segments ++ tokensFrom (line + newlinesIn segments) others := by
  simp only [tokensFrom_eq, ending_append, List.filterMap_append]

theorem errorsFrom_append (line : ℕ) (segments others : List Segment) :
    errorsFrom line (segments ++ others) =
      errorsFrom line segments ++ errorsFrom (line + newlinesIn segments) others := by
  simp only [errorsFrom_eq, ending_append, List.filterMap_append]

theorem token?_down (line n : ℕ) (s : Segment) :
    s.token? (line + n) = (s.token? line).map (Token.down n) := by
  cases s <;> simp [token?, Token.down]

theorem error?_down (line n : ℕ) (s : Segment) :
    s.error? (line + n) = (s.error? line).map (SyntaxError.down n) := by
  cases s <;> simp [error?, fault?, SyntaxError.down]

theorem tokensFrom_down (line n : ℕ) (segments : List Segment) :
    tokensFrom (line + n) segments = (tokensFrom line segments).map (Token.down n) := by
  simp only [tokensFrom_eq, ending_down, List.filterMap_map, List.map_filterMap]
  exact congrArg (List.filterMap · _) (funext fun p => token?_down p.1 n p.2)

theorem errorsFrom_down (line n : ℕ) (segments : List Segment) :
    errorsFrom (line + n) segments = (errorsFrom line segments).map (SyntaxError.down n) := by
  simp only [errorsFrom_eq, ending_down, List.filterMap_map, List.map_filterMap]
  exact congrArg (List.filterMap · _) (funext fun p => error?_down p.1 n p.2)

theorem errorsFrom_eq_nil {line : ℕ} {segments : List Segment} :
    errorsFrom line segments = [] ↔ ∀ s ∈ segments, s.fault? = none := by
  induction segments generalizing line with
  | nil => simp [errorsFrom]
  | cons s segments ih => simp [errorsFrom, ih, Option.toList_eq_nil_iff]

end Segment

open Segment

theorem programTokens_scan (source : String) :
    programTokens (scan source).tokens.toList = tokensFrom 1 (pieces source.toList) := by
  have hkinds := (segmentation_pieces _ source.toList le_rfl).kind_ne_endOfInput 1
  have hrun : ∀ t ∈ tokensFrom 1 (pieces source.toList), (t.kind != .endOfInput) = true :=
    fun t ht => by simpa using hkinds t ht
  rw [programTokens, tokens_scan, List.takeWhile_append_of_pos hrun,
    List.takeWhile_cons_of_neg (by simp), List.append_nil]

theorem errors_scan_eq_empty {source : String} :
    (scan source).errors = #[] ↔ ∀ s ∈ pieces source.toList, s.fault? = none := by
  rw [← errorsFrom_eq_nil, ← errors_scan, Array.toList_eq_nil_iff]

/-- Every string of a source is closed: scanning reports none that is not. -/
def Closed (source : String) : Prop :=
  ∀ e ∈ (scan source).errors, e.message ≠ "Unterminated string."

instance {source : String} : Decidable (Closed source) :=
  inferInstanceAs (Decidable (∀ e ∈ (scan source).errors, e.message ≠ "Unterminated string."))

theorem closed_iff {source : String} :
    Closed source ↔ ∀ s ∈ pieces source.toList, s.fault? ≠ some .unterminatedString := by
  have hmessages := messages_errorsFrom (pieces source.toList) 1
  rw [← errors_scan] at hmessages
  have hcomplaint : ∀ s : Segment, s.complaint? = some "Unterminated string." ↔
      s.fault? = some .unterminatedString := by
    intro s
    cases s <;> simp [complaint?, fault?]
  calc Closed source
      ↔ "Unterminated string." ∉ (scan source).errors.toList.map (·.message) := by
        simp [Closed]
    _ ↔ ∀ s ∈ pieces source.toList, s.fault? ≠ some .unterminatedString := by
        rw [hmessages, List.mem_filterMap]
        simp [hcomplaint]

theorem closed_of_errors {source : String} (h : (scan source).errors = #[]) : Closed source := by
  intro e he
  simp [h] at he

/-- Two sources with a line end between them. -/
def joined (first second : String) : String := first ++ "\n" ++ second

/-- The number of lines of a source, which is how far another one moves
down that is joined to it. -/
def lineCount (source : String) : ℕ := source.toList.count '\n' + 1

/-- The mark at the end of a source stands on its last line. -/
theorem tokens_scan_push (source : String) :
    (scan source).tokens = (tokensFrom 1 (pieces source.toList)).toArray.push
      ⟨.endOfInput, "", .nil, lineCount source⟩ := by
  apply Array.toList_inj.1
  rw [tokens_scan, newlinesIn_pieces, Array.toList_push, lineCount, Nat.add_comm]

section

variable {first second : String}

theorem toList_joined : (joined first second).toList = first.toList ++ '\n' :: second.toList := by
  simp [joined]

theorem pieces_joined (hfirst : Closed first) : pieces (joined first second).toList =
    pieces first.toList ++ newline :: pieces second.toList := by
  rw [toList_joined]
  exact pieces_append_newline _ _ le_rfl (closed_iff.1 hfirst) _

theorem lineCount_joined :
    lineCount (joined first second) = lineCount second + lineCount first := by
  simp only [lineCount, toList_joined, List.count_append, List.count_cons_self]
  omega

theorem tokensFrom_joined (hfirst : Closed first) :
    tokensFrom 1 (pieces (joined first second).toList) = tokensFrom 1 (pieces first.toList) ++
      (tokensFrom 1 (pieces second.toList)).map (Token.down (lineCount first)) := by
  rw [pieces_joined hfirst, tokensFrom_append, newlinesIn_pieces, ← tokensFrom_down, lineCount]
  rfl

theorem errorsFrom_joined (hfirst : Closed first) :
    errorsFrom 1 (pieces (joined first second).toList) = errorsFrom 1 (pieces first.toList) ++
      (errorsFrom 1 (pieces second.toList)).map (SyntaxError.down (lineCount first)) := by
  rw [pieces_joined hfirst, errorsFrom_append, newlinesIn_pieces, ← errorsFrom_down, lineCount]
  rfl

/-- **Joined sources have the tokens of both**, those of the second moved
down. -/
theorem programTokens_joined (hfirst : (scan first).errors = #[]) :
    programTokens (scan (joined first second)).tokens.toList =
      programTokens (scan first).tokens.toList ++
        (programTokens (scan second).tokens.toList).map (Token.down (lineCount first)) := by
  simp only [programTokens_scan, tokensFrom_joined (closed_of_errors hfirst)]

theorem errors_scan_joined (hfirst : (scan first).errors = #[])
    (hsecond : (scan second).errors = #[]) : (scan (joined first second)).errors = #[] := by
  rw [← Array.toList_eq_nil_iff, errors_scan] at hsecond ⊢
  rw [errorsFrom_joined (closed_of_errors hfirst), ← errors_scan, hfirst, hsecond]
  rfl

end

/-- **Scanning distributes over a line end.** If every string of the first
source is closed, then the tokens of both, with a line end between them, are
those of the first up to its mark and those of the second, its mark among
them, moved down; and the errors are those of the first, then those of the
second, moved down. -/
theorem scan_joined (first second : String) (hfirst : Closed first) :
    ∃ tokens mark, (scan first).tokens = tokens.push mark ∧ mark.kind = .endOfInput ∧
      (scan (joined first second)).tokens =
        tokens ++ (scan second).tokens.map (Token.down (lineCount first)) ∧
      (scan (joined first second)).errors =
        (scan first).errors ++ (scan second).errors.map (SyntaxError.down (lineCount first)) := by
  refine ⟨_, _, tokens_scan_push first, rfl, ?_, ?_⟩
  · rw [tokens_scan_push, tokensFrom_joined hfirst, lineCount_joined, tokens_scan_push second]
    apply Array.toList_inj.1
    simp [Token.down]
  · apply Array.toList_inj.1
    rw [errors_scan, errorsFrom_joined hfirst, Array.toList_append, Array.toList_map, errors_scan,
      errors_scan]

/-- A point behind a numeral, a character that starts nothing, and a quote in
a comment. -/
def looseEnds : String := "1. @ // \"no string"

/-- The comment ends with its line, and the string on the next one is never
closed. -/
theorem looseEnds_joined :
    Closed looseEnds ∧ ∃ tokens mark, (scan looseEnds).tokens = tokens.push mark ∧
      mark.kind = .endOfInput ∧
      (scan (joined looseEnds "=\n\"a")).tokens =
        tokens ++ (scan "=\n\"a").tokens.map (Token.down 1) ∧
      (scan (joined looseEnds "=\n\"a")).errors =
        (scan looseEnds).errors ++ (scan "=\n\"a").errors.map (SyntaxError.down 1) := by
  have hclosed : Closed looseEnds := by decide +kernel
  have hline : lineCount looseEnds = 1 := by decide
  exact ⟨hclosed, hline ▸ scan_joined looseEnds "=\n\"a" hclosed⟩

end Treewalk
