import Treewalk.Proofs.Token.Scanning

/-!
# Lines

Scanning counts the line ends between tokens and those inside strings, and
there are no others (`Fits.newlines_eq_count`). So a segment ends on the line
it starts on, plus one line for each line end it covers. `ending` pairs the
segments of a text with the lines they end on, and the tokens and the errors
of a text are both read off this one list. So the order of its lines is the
order of the lines of tokens and of errors, and where a segment stands in the
text gives its line: `lines_exact` says which, for every source.
-/

namespace Treewalk

namespace Segment

/-! ## Segments and the lines they end on -/

/-- The error of a segment that ends on `line`. -/
def error? (line : ℕ) (s : Segment) : Option SyntaxError :=
  s.fault?.map fun f => ⟨line, f.message, ""⟩

/-- Segments that start on `line`, each with the line it ends on. -/
def ending : ℕ → List Segment → List (ℕ × Segment)
  | _, [] => []
  | line, s :: rest => (line + s.newlines, s) :: ending (line + s.newlines) rest

theorem tokensFrom_eq (line : ℕ) (segments : List Segment) :
    tokensFrom line segments = (ending line segments).filterMap fun p => p.2.token? p.1 := by
  induction segments generalizing line with
  | nil => rfl
  | cons s rest ih =>
    rw [tokensFrom, ending, ih, List.filterMap_cons]
    cases s.token? (line + s.newlines) <;> rfl

theorem errorsFrom_eq (line : ℕ) (segments : List Segment) :
    errorsFrom line segments = (ending line segments).filterMap fun p => p.2.error? p.1 := by
  induction segments generalizing line with
  | nil => rfl
  | cons s rest ih =>
    rw [errorsFrom, ending, ih, List.filterMap_cons, error?]
    cases s.fault? <;> simp

theorem newlinesIn_cons (s : Segment) (rest : List Segment) :
    newlinesIn (s :: rest) = s.newlines + newlinesIn rest :=
  List.sum_cons

theorem ending_append (line : ℕ) (segments others : List Segment) :
    ending line (segments ++ others) =
      ending line segments ++ ending (line + newlinesIn segments) others := by
  induction segments generalizing line with
  | nil => rfl
  | cons s rest ih =>
    rw [List.cons_append, ending, ending, ih, newlinesIn_cons, Nat.add_assoc, List.cons_append]

/-- Further down, all segments end as many lines further down. -/
theorem ending_down (line n : ℕ) (segments : List Segment) :
    ending (line + n) segments = (ending line segments).map (Prod.map (· + n) id) := by
  induction segments generalizing line with
  | nil => rfl
  | cons s rest ih =>
    rw [ending, ending, List.map_cons, ← ih, Nat.add_right_comm line n]
    rfl

/-- The text that segments cover. -/
def cover (segments : List Segment) : List Char := (segments.map text).flatten

theorem cover_append_cons (front back : List Segment) (s : Segment) :
    cover (front ++ s :: back) = cover front ++ s.text ++ cover back := by
  simp [cover]

theorem cover_pieces (cs : List Char) : cover (pieces cs) = cs :=
  (segmentation_pieces _ cs le_rfl).flatten_text

/-- Every segment of a segmentation fits in front of what the others behind
it cover. -/
theorem Segmentation.fits {cs : List Char} {front back : List Segment} {s : Segment}
    (h : Segmentation cs (front ++ s :: back)) : s.Fits (cover back) := by
  induction front generalizing cs with
  | nil =>
    cases h with
    | cons hfits _ hback =>
      rw [cover, hback.flatten_text]
      exact hfits
  | cons _ front ih =>
    cases h with
    | cons _ _ hrest => exact ih hrest

theorem exists_fits {cs : List Char} {s : Segment} (h : s ∈ pieces cs) : ∃ rest, s.Fits rest := by
  obtain ⟨front, back, hpieces⟩ := List.append_of_mem h
  exact ⟨cover back, (hpieces ▸ segmentation_pieces _ cs le_rfl).fits⟩

/-! ## Line ends -/

/-- A lexeme with a line end in it is a string. -/
theorem Lexeme.newline_not_mem {kind : Kind} {text : List Char} (h : Lexeme kind text)
    (hkind : kind ≠ .string) : '\n' ∉ text := by
  have hdigits : ∀ {ds}, Digits ds → '\n' ∉ ds := fun hds hmem => absurd (hds.2 _ hmem) (by decide)
  cases h with
  | sign hmem =>
    have hsigns : ∀ p ∈ signs, '\n' ∉ p.1 := by decide
    exact hsigns _ hmem
  | string _ => exact absurd rfl hkind
  | whole hwhole => exact hdigits hwhole
  | fraction hwhole hdecimals => simp [hdigits hwhole, hdigits hdecimals]
  | word hletter htail =>
    intro hmem
    rcases List.mem_cons.1 hmem with rfl | hmem
    · exact absurd hletter (by decide)
    · exact absurd (htail _ hmem) (by decide)

theorem newlines_token {kind : Kind} {lexeme : List Char} (h : '\n' ∉ lexeme) :
    (token kind lexeme).newlines = 0 := by
  by_cases hkind : kind = .string
  · subst hkind
    exact List.count_eq_zero.2 h
  · cases kind <;> first | rfl | exact absurd rfl hkind

/-- **All line ends count**: those that scanning counts, between tokens and
inside strings, are all that a segment of a text can have. -/
theorem Fits.newlines_eq_count {s : Segment} {rest : List Char} (h : s.Fits rest) :
    s.newlines = s.text.count '\n' := by
  cases s with
  | token kind lexeme =>
    by_cases hkind : kind = .string
    · subst hkind
      rfl
    · have hnone : '\n' ∉ lexeme := Lexeme.newline_not_mem h hkind
      rw [newlines_token hnone]
      exact (List.count_eq_zero.2 hnone).symm
  | blank c => rcases h with rfl | rfl | rfl <;> rfl
  | newline => rfl
  | comment text =>
    obtain ⟨body, hbody, rfl⟩ := h
    simp [newlines, Segment.text, List.count_eq_zero.2 hbody]
  | unexpected c =>
    have hline : c ≠ '\n' := h.2.2.2.2
    simp [newlines, Segment.text, hline]
  | unterminated text => rfl

theorem newlinesIn_eq_count {segments : List Segment} (h : ∀ s ∈ segments, ∃ rest, s.Fits rest) :
    newlinesIn segments = (cover segments).count '\n' := by
  have hcount : segments.map newlines = segments.map fun s => s.text.count '\n' :=
    List.map_congr_left fun s hs => (h s hs).choose_spec.newlines_eq_count
  rw [newlinesIn, hcount, cover, List.count_flatten, List.map_map]
  rfl

/-- The line ends of the segments are those of the text. -/
theorem newlinesIn_pieces (cs : List Char) : newlinesIn (pieces cs) = cs.count '\n' := by
  rw [newlinesIn_eq_count fun s hs => exists_fits hs, cover_pieces]

/-! ## Their order -/

/-- **Segments end in the order of their lines**, between the line they start
on and the one the last of them ends on. -/
theorem ending_ordered (line : ℕ) (segments : List Segment) :
    (∀ p ∈ ending line segments, line ≤ p.1 ∧ p.1 ≤ line + newlinesIn segments) ∧
      (ending line segments).Pairwise (·.1 ≤ ·.1) := by
  induction segments generalizing line with
  | nil => exact ⟨List.forall_mem_nil _, .nil⟩
  | cons s rest ih =>
    obtain ⟨hwithin, hordered⟩ := ih (line + s.newlines)
    rw [ending, newlinesIn_cons]
    constructor
    · intro p hp
      rcases List.mem_cons.1 hp with rfl | hp
      · exact ⟨by omega, by omega⟩
      · have hlines := hwithin p hp
        omega
    · exact List.pairwise_cons.2 ⟨fun p hp => (hwithin p hp).1, hordered⟩

theorem line_of_token? {line : ℕ} {s : Segment} {t : Token} (h : s.token? line = some t) :
    t.line = line := by
  cases s <;> simp only [token?, Option.some.injEq, reduceCtorEq] at h
  exact h ▸ rfl

theorem line_of_error? {line : ℕ} {s : Segment} {e : SyntaxError} (h : s.error? line = some e) :
    e.line = line := by
  obtain ⟨f, -, rfl⟩ := Option.map_eq_some_iff.1 h
  rfl

end Segment

open Segment

/-- **The tokens of a source stand in the order of their lines.** -/
theorem lines_scan (source : String) :
    (scan source).tokens.toList.Pairwise (·.line ≤ ·.line) := by
  obtain ⟨hwithin, hordered⟩ := ending_ordered 1 (pieces source.toList)
  rw [tokens_scan, tokensFrom_eq]
  refine List.pairwise_append.2 ⟨hordered.filterMap _ ?_, List.pairwise_singleton _ _, ?_⟩
  · intro p q hle t ht u hu
    rw [line_of_token? ht, line_of_token? hu]
    exact Int.ofNat_le.2 hle
  · -- the mark stands on the last line
    intro t ht mark hmark
    obtain ⟨p, hp, hpt⟩ := List.mem_filterMap.1 ht
    obtain rfl := List.mem_singleton.1 hmark
    rw [line_of_token? hpt]
    exact Int.ofNat_le.2 (hwithin p hp).2

/-- **So do its errors.** -/
theorem errorLines_scan (source : String) :
    (scan source).errors.toList.Pairwise (·.line ≤ ·.line) := by
  rw [errors_scan, errorsFrom_eq]
  refine (ending_ordered 1 (pieces source.toList)).2.filterMap _ ?_
  intro p q hle e he e' he'
  rw [line_of_error? he, line_of_error? he']
  exact Int.ofNat_le.2 hle

/-! ## Where a segment stands -/

namespace Segment

section

variable {front : List Segment} {s : Segment}
variable {α β : Type} {f : ℕ → Segment → Option α} {g : Segment → Option β}

theorem length_filterMap_ending (h : ∀ line s, (f line s).isSome = (g s).isSome) (line : ℕ)
    (segments : List Segment) :
    ((ending line segments).filterMap fun p => f p.1 p.2).length =
      (segments.filterMap g).length := by
  induction segments generalizing line with
  | nil => rfl
  | cons s rest ih =>
    have hsome := h (line + s.newlines) s
    rw [ending, List.filterMap_cons, List.filterMap_cons]
    cases hf : f (line + s.newlines) s <;> cases hg : g s <;> simp_all

/-- **What a segment contributes** stands behind as much as those in front of
it contribute, and has the line that the text up to its end leads to. -/
theorem getElem?_ending (h : ∀ line s, (f line s).isSome = (g s).isSome)
    (hfits : ∀ p ∈ front ++ [s], ∃ rest, p.Fits rest) {line : ℕ} {a : α}
    (ha : f (line + (cover front ++ s.text).count '\n') s = some a) (back : List Segment) :
    ((ending line (front ++ s :: back)).filterMap fun p => f p.1 p.2)[
      (front.filterMap g).length]? = some a := by
  have hline : line + newlinesIn front + s.newlines =
      line + (cover front ++ s.text).count '\n' := by
    obtain ⟨hfront, hlast⟩ := List.forall_mem_append.1 hfits
    obtain ⟨rest, hs⟩ := hlast s (List.mem_singleton_self s)
    rw [newlinesIn_eq_count hfront, hs.newlines_eq_count, List.count_append, Nat.add_assoc]
  rw [ending_append, ending, hline, List.filterMap_append, ← length_filterMap_ending h line,
    List.getElem?_append_right le_rfl, Nat.sub_self]
  simp only [List.filterMap_cons, ha, List.getElem?_cons_zero]

end

theorem isSome_token? (line : ℕ) (s : Segment) : (s.token? line).isSome = s.lexeme?.isSome := by
  cases s <;> rfl

theorem isSome_error? (line : ℕ) (s : Segment) : (s.error? line).isSome = s.fault?.isSome :=
  Option.isSome_map

end Segment

section

variable {source : String} {front back : List Segment} {s : Segment}
  (hpieces : pieces source.toList = front ++ s :: back)
include hpieces

theorem fits_of_pieces : ∀ p ∈ front ++ [s], ∃ rest, p.Fits rest := by
  intro p hp
  have hmem : p ∈ pieces source.toList := by
    rw [hpieces, List.append_cons]
    exact List.mem_append_left back hp
  exact exists_fits hmem

theorem getElem?_tokens_scan {t : Token}
    (ht : s.token? (1 + (cover front ++ s.text).count '\n') = some t) :
    (scan source).tokens[(front.filterMap lexeme?).length]? = some t := by
  have hplace := getElem?_ending isSome_token? (fits_of_pieces hpieces) ht back
  rw [← Array.getElem?_toList, tokens_scan, tokensFrom_eq, hpieces]
  exact List.getElem?_append_left (List.getElem?_eq_some_iff.1 hplace).1 ▸ hplace

theorem getElem?_errors_scan {e : SyntaxError}
    (he : s.error? (1 + (cover front ++ s.text).count '\n') = some e) :
    (scan source).errors[(front.filterMap fault?).length]? = some e := by
  rw [← Array.getElem?_toList, errors_scan, errorsFrom_eq, hpieces]
  exact getElem?_ending isSome_error? (fits_of_pieces hpieces) he back

end

/-- **Lines are right for every source.** A source has one segmentation, and
every segment stands in it behind the text that those in front of it cover.
- The token of a lexeme carries 1 plus the number of line ends up to the end
  of the lexeme, and the mark at the end 1 plus the number of all of them.
- The error of an unexpected character carries 1 plus the number of line ends
  in front of it, and that of a string which is never closed carries the line
  of the mark.
- There are no other tokens or errors, and the lines of both never decrease. -/
theorem lines_exact (source : String) :
    ∃ segments, Segmentation source.toList segments ∧
      (∀ others, Segmentation source.toList others → others = segments) ∧
      (∀ front kind lexeme back, segments = front ++ token kind lexeme :: back →
        ∃ t, (scan source).tokens[(front.filterMap lexeme?).length]? = some t ∧
          t.kind = kind ∧ t.lexeme = String.ofList lexeme ∧
          t.line = 1 + (cover front ++ lexeme).count '\n') ∧
      (∃ mark, (scan source).tokens[(segments.filterMap lexeme?).length]? = some mark ∧
        mark.kind = .endOfInput ∧ mark.line = 1 + source.toList.count '\n') ∧
      (∀ front c back, segments = front ++ unexpected c :: back →
        (scan source).errors[(front.filterMap fault?).length]? =
          some ⟨1 + (cover front).count '\n', "Unexpected character.", ""⟩) ∧
      (∀ front body back, segments = front ++ unterminated body :: back →
        (scan source).errors[(front.filterMap fault?).length]? =
          some ⟨1 + source.toList.count '\n', "Unterminated string.", ""⟩) ∧
      (scan source).tokens.size = (segments.filterMap lexeme?).length + 1 ∧
      (scan source).errors.size = (segments.filterMap fault?).length ∧
      (scan source).tokens.toList.Pairwise (·.line ≤ ·.line) ∧
      (scan source).errors.toList.Pairwise (·.line ≤ ·.line) := by
  have hsegmentation := segmentation_pieces _ source.toList le_rfl
  have htokens := tokens_scan source
  have hcount : (tokensFrom 1 (pieces source.toList)).length =
      ((pieces source.toList).filterMap lexeme?).length := by
    rw [tokensFrom_eq]
    exact length_filterMap_ending isSome_token? 1 _
  refine ⟨pieces source.toList, hsegmentation, fun _ h => h.eq_pieces, ?_, ?_, ?_, ?_, ?_, ?_,
    lines_scan source, errorLines_scan source⟩
  · intro front kind lexeme back hpieces
    exact ⟨_, getElem?_tokens_scan hpieces rfl, rfl, rfl, by simp [text]⟩
  · refine ⟨⟨.endOfInput, "", .nil, 1 + source.toList.count '\n'⟩, ?_, rfl, rfl⟩
    rw [← Array.getElem?_toList, htokens, ← hcount, newlinesIn_pieces]
    simp
  · intro front c back hpieces
    -- the character itself is no line end
    have hline : c ≠ '\n' := (hpieces ▸ hsegmentation).fits.2.2.2.2
    rw [getElem?_errors_scan hpieces rfl]
    simp [text, LexicalFault.message, hline]
  · intro front body back hpieces
    -- nothing is left to be covered behind it
    obtain ⟨-, -, -, hback⟩ := (hpieces ▸ hsegmentation).fits
    have hcover : cover front ++ body = source.toList := by
      rw [← cover_pieces source.toList, hpieces, cover_append_cons, hback, List.append_nil]
      rfl
    rw [getElem?_errors_scan hpieces rfl]
    simp [text, LexicalFault.message, hcover]
  · rw [← Array.length_toList, htokens, List.length_append, hcount]
    rfl
  · rw [← Array.length_toList, errors_scan, errorsFrom_eq]
    exact length_filterMap_ending isSome_error? 1 _

/-- A string over two lines, a character that starts nothing, and a string on
the third line that is never closed. -/
def brokenLines : String := "\"a\nb\" @\n\"c"

/-- The string carries the line of its closing quote, and so does the
character behind it. -/
theorem brokenLines_exact :
    (∃ t, (scan brokenLines).tokens[0]? = some t ∧ t.kind = .string ∧ t.line = 2) ∧
      (scan brokenLines).errors[0]? = some ⟨2, "Unexpected character.", ""⟩ ∧
      (scan brokenLines).errors[1]? = some ⟨3, "Unterminated string.", ""⟩ := by
  obtain ⟨segments, hsegmentation, -, htokens, -, hunexpected, hunterminated, -⟩ :=
    lines_exact brokenLines
  have hsegments : segments = [token .string ['"', 'a', '\n', 'b', '"'], blank ' ',
      unexpected '@', newline, unterminated ['"', 'c']] := by
    rw [hsegmentation.eq_pieces]
    decide +kernel
  obtain ⟨t, ht, hkind, -, hline⟩ := htokens [] _ _ _ hsegments
  exact ⟨⟨t, ht, hkind, hline⟩, hunexpected [_, _] _ _ hsegments,
    hunterminated [_, _, _, _] _ _ hsegments⟩

end Treewalk
