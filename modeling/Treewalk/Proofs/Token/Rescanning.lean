import Treewalk.Proofs.Token.Joining

/-!
# Scanning lexemes again

Tokens that are written out with layout between them are found again by
scanning: a lexeme alone is cut off whole, and layout behind it changes
nothing (`first_of_lexeme`). Each token comes back with its kind, its text and
its value; only the line may be another. So the tokens of any source survive
the way through their own texts.
-/

namespace Treewalk

namespace Segment

/-! ## Lexemes and layout -/

/-- The segment of a layout character. -/
def ofLayout (c : Char) : Segment := if c = '\n' then newline else blank c

theorem first_of_isLayout {c : Char} (h : isLayout c) (rest : List Char) :
    first c rest = (ofLayout c, rest) := by
  rcases isLayout_iff.1 h with rfl | rfl | rfl | rfl <;> rfl

/-- A run of layout is cut into its characters. -/
theorem pieces_layout {gap : List Char} (h : ∀ c ∈ gap, isLayout c) (rest : List Char) :
    pieces (gap ++ rest) = gap.map ofLayout ++ pieces rest := by
  induction gap with
  | nil => rfl
  | cons c gap ih =>
    obtain ⟨hc, hgap⟩ := List.forall_mem_cons.1 h
    rw [List.cons_append, pieces_cons, first_of_isLayout hc, ih hgap]
    rfl

theorem fault?_ofLayout (c : Char) : (ofLayout c).fault? = none := by
  unfold ofLayout
  split <;> rfl

theorem lexemes_layout (gap : List Char) : (gap.map ofLayout).filterMap lexeme? = [] := by
  rw [List.filterMap_map, List.filterMap_eq_nil_iff]
  intro c _
  simp only [Function.comp_apply, ofLayout]
  split <;> rfl

variable {kind : Kind} {lexeme rest : List Char}

/-- **A lexeme is cut off whole** at the end of a text and in front of
layout. -/
theorem first_of_lexeme {c : Char} {tail : List Char} (h : Lexeme kind (c :: tail))
    (hrest : ∀ b ∈ rest.head?, isLayout b) :
    first c (tail ++ rest) = (token kind (c :: tail), rest) := by
  have halone : first c tail = (token kind (c :: tail), []) := by
    have hfits : (token kind (c :: tail)).Fits [] := h
    rcases outdoes_first hfits (List.append_nil _) with hlt | hcut
    · -- nothing is longer than the whole text
      have hlength := congrArg List.length (text_first c tail)
      rw [List.length_append] at hlength
      simp only [text, List.length_cons] at hlt hlength
      omega
    · exact hcut
  cases rest with
  | nil => rw [List.append_nil, halone]
  | cons b rest =>
    have hb : isLayout b := hrest b rfl
    have hclosed : (first c tail).1.fault? ≠ some .unterminatedString := by simp [halone, fault?]
    have hcomment : ∀ text, (first c tail).1 ≠ comment text := by simp [halone]
    rw [first_append_layout hb hclosed (.inr hcomment), halone]
    rfl

theorem pieces_lexeme (h : Lexeme kind lexeme) (hrest : ∀ b ∈ rest.head?, isLayout b) :
    pieces (lexeme ++ rest) = token kind lexeme :: pieces rest := by
  obtain ⟨c, tail, rfl, -⟩ := h.exists_cons
  rw [List.cons_append, pieces_cons, first_of_lexeme h hrest]

end Segment

open Segment

/-! ## Tokens written out -/

namespace Token

/-- What a token carries, but for its line. -/
def content (t : Token) : Kind × String × Value := (t.kind, t.lexeme, t.literal)

/-- A token whose text its kind can have, with the value that it stands
for. -/
structure Valid (t : Token) : Prop where
  lexeme : Lexeme t.kind t.lexeme.toList
  literal : Denotes t.kind t.lexeme.toList t.literal

end Token

/-- The content of a token with a given lexeme. -/
def contentOf (lexeme : Kind × List Char) : Kind × String × Value :=
  (lexeme.1, String.ofList lexeme.2, literal lexeme.1 lexeme.2)

theorem Token.Valid.contentOf_eq {t : Token} (h : t.Valid) :
    contentOf (t.kind, t.lexeme.toList) = t.content := by
  simp [contentOf, Token.content, h.literal.literal_eq]

/-- The text of tokens, each with what stands behind it. -/
def written (items : List (Token × List Char)) : List Char :=
  items.flatMap fun i => i.1.lexeme.toList ++ i.2

/-- Only layout stands behind the tokens, and at least one character of it
between any two. -/
structure Spaced (items : List (Token × List Char)) : Prop where
  layout : ∀ i ∈ items, ∀ c ∈ i.2, isLayout c
  between : ∀ i ∈ items.dropLast, i.2 ≠ []

variable {i : Token × List Char} {items : List (Token × List Char)}

theorem Spaced.tail (h : Spaced (i :: items)) : Spaced items where
  layout := fun j hj => h.layout j (List.mem_cons_of_mem _ hj)
  between := fun j hj => by
    cases items with
    | nil => nomatch hj
    | cons k items => exact h.between j (List.mem_cons_of_mem _ hj)

/-- Behind a token there is layout, or nothing. -/
theorem Spaced.isLayout_head (h : Spaced (i :: items)) :
    ∀ b ∈ (i.2 ++ written items).head?, isLayout b := by
  intro b hb
  cases hgap : i.2 with
  | cons c gap =>
    rw [hgap] at hb
    obtain rfl : c = b := by simpa using hb
    exact h.layout i List.mem_cons_self c (hgap ▸ List.mem_cons_self)
  | nil =>
    cases items with
    | nil => simp [hgap, written] at hb
    | cons j items => exact absurd hgap (h.between i List.mem_cons_self)

theorem pieces_written (hvalid : ∀ i ∈ items, i.1.Valid) (h : Spaced items) :
    pieces (written items) =
      items.flatMap fun i => token i.1.kind i.1.lexeme.toList :: i.2.map ofLayout := by
  induction items with
  | nil => exact pieces_nil
  | cons i items ih =>
    obtain ⟨hi, hitems⟩ := List.forall_mem_cons.1 hvalid
    have hcut : written (i :: items) = i.1.lexeme.toList ++ (i.2 ++ written items) := by
      simp [written]
    rw [hcut, pieces_lexeme hi.lexeme h.isLayout_head,
      pieces_layout (h.layout i List.mem_cons_self), ih hitems h.tail]
    rfl

theorem content_tokensFrom (line : ℕ) (segments : List Segment) :
    (tokensFrom line segments).map Token.content =
      (segments.filterMap lexeme?).map contentOf := by
  induction segments generalizing line with
  | nil => rfl
  | cons s rest ih =>
    rw [tokensFrom, List.map_append, ih]
    cases s <;> rfl

/-- **Scanning finds the tokens again** that were written out, and reports
nothing. -/
theorem scan_written {lead : List Char} (hlead : ∀ c ∈ lead, isLayout c)
    (hvalid : ∀ i ∈ items, i.1.Valid) (h : Spaced items) :
    (scan (String.ofList (lead ++ written items))).errors = #[] ∧
      (scan (String.ofList (lead ++ written items))).tokens.toList.map Token.content =
        items.map (fun i => i.1.content) ++ [(.endOfInput, "", .nil)] := by
  have hpieces := (pieces_layout hlead (written items)).trans
    (congrArg _ (pieces_written hvalid h))
  constructor
  · rw [errors_scan_eq_empty, String.toList_ofList, hpieces]
    intro s hs
    simp only [List.mem_append, List.mem_map, List.mem_flatMap, List.mem_cons] at hs
    rcases hs with ⟨c, -, rfl⟩ | ⟨i, -, rfl | ⟨c, -, rfl⟩⟩
    · exact fault?_ofLayout c
    · rfl
    · exact fault?_ofLayout c
  · have hlexemes : (pieces (lead ++ written items)).filterMap lexeme? =
        items.map fun i => (i.1.kind, i.1.lexeme.toList) := by
      rw [hpieces, List.filterMap_append, lexemes_layout, List.nil_append, List.filterMap_flatMap]
      simp only [List.filterMap_cons, lexeme?, lexemes_layout]
      exact List.map_eq_flatMap.symm
    rw [tokens_scan, String.toList_ofList, List.map_append, content_tokensFrom, hlexemes,
      List.map_map]
    refine congrArg (· ++ _) (List.map_congr_left fun i hi => (hvalid i hi).contentOf_eq)

/-! ## The tokens of a source -/

theorem Segment.Segmentation.valid {cs : List Char} {segments : List Segment}
    (h : Segmentation cs segments) (line : ℕ) : ∀ t ∈ tokensFrom line segments, t.Valid := by
  induction h generalizing line with
  | nil => exact List.forall_mem_nil _
  | @cons s _ _ hfits _ _ ih =>
    cases s with
    | token kind lexeme =>
      rintro t (_ | ⟨_, ht⟩)
      · have hlexeme : Lexeme kind (String.ofList lexeme).toList := by
          rw [String.toList_ofList]
          exact hfits
        exact ⟨hlexeme, by simpa using denotes_literal hlexeme⟩
      · exact ih _ t ht
    | _ => exact ih _

theorem intercalate_concat {α : Type} (sep : List α) (parts : List (List α)) (last : List α) :
    sep.intercalate (parts ++ [last]) = parts.flatMap (· ++ sep) ++ last := by
  induction parts with
  | nil => simp
  | cons part parts ih =>
    rw [List.cons_append, List.intercalate_cons_of_ne_nil (by simp), ih]
    simp

/-- Tokens, each with a space behind it. -/
def withSpaces (tokens : List Token) : List (Token × List Char) := tokens.map fun t => (t, [' '])

theorem map_fst_withSpaces (tokens : List Token) : (withSpaces tokens).map Prod.fst = tokens := by
  rw [withSpaces, List.map_map]
  exact List.map_id tokens

theorem gap_of_mem_withSpaces {tokens : List Token} (h : i ∈ withSpaces tokens) : i.2 = [' '] := by
  obtain ⟨t, -, rfl⟩ := List.mem_map.1 h
  rfl

theorem spaced_withSpaces_append {tokens : List Token} {last : List (Token × List Char)}
    (h : last = [] ∨ ∃ t, last = [(t, [])]) : Spaced (withSpaces tokens ++ last) := by
  have hspace : ∀ i ∈ withSpaces tokens, (∀ c ∈ i.2, isLayout c) ∧ i.2 ≠ [] := by
    intro i hi
    rw [gap_of_mem_withSpaces hi]
    exact ⟨by simp [isLayout], List.cons_ne_nil _ _⟩
  rcases h with rfl | ⟨t, rfl⟩
  · rw [List.append_nil]
    exact ⟨fun i hi => (hspace i hi).1, fun i hi => (hspace i (List.dropLast_subset _ hi)).2⟩
  · refine ⟨List.forall_mem_append.2 ⟨fun i hi => (hspace i hi).1, by simp⟩, ?_⟩
    rw [List.dropLast_concat]
    exact fun i hi => (hspace i hi).2

/-- Texts joined with spaces have a space behind each but the last. -/
theorem intercalate_lexemes (tokens : List Token) (last : String) :
    " ".intercalate (tokens.map (·.lexeme) ++ [last]) =
      String.ofList (written (withSpaces tokens) ++ last.toList) := by
  rw [← String.toList_inj, String.toList_intercalate, String.toList_ofList, List.map_append,
    List.map_map]
  refine (intercalate_concat _ _ _).trans ?_
  simp [written, withSpaces, List.flatMap_map]

/-- **Texts joined with spaces are tokens written out**, whether or not the
empty text of the mark is among them. -/
theorem exists_spaced (tokens : List Token) (text : String)
    (h : text ∈ [" ".intercalate (tokens.map (·.lexeme) ++ [""]),
      " ".intercalate (tokens.map (·.lexeme))]) :
    ∃ items, items.map Prod.fst = tokens ∧ Spaced items ∧ text = String.ofList (written items) := by
  rcases List.mem_pair.1 h with rfl | rfl
  · exact ⟨withSpaces tokens ++ [], by simp [map_fst_withSpaces],
      spaced_withSpaces_append (.inl rfl), by simp [intercalate_lexemes]⟩
  · rcases List.eq_nil_or_concat tokens with rfl | ⟨front, last, rfl⟩
    · exact ⟨[], rfl, ⟨List.forall_mem_nil _, List.forall_mem_nil _⟩, by simp [written]⟩
    · refine ⟨withSpaces front ++ [(last, [])], by simp [map_fst_withSpaces],
        spaced_withSpaces_append (.inr ⟨last, rfl⟩), ?_⟩
      rw [List.concat_eq_append, List.map_append, List.map_singleton, intercalate_lexemes]
      simp [written]

/-- **The lexemes of tokens give back the tokens.** Take tokens with texts
that their kinds can have and the values these stand for, and write them out
with layout in front, behind, and at least one character of it between any
two. Scanning the text reports nothing and yields the same kinds, texts and
values, and then the mark. So for every source, the texts of its tokens joined
with spaces, that of the mark included or not, have the same tokens again. -/
theorem rescan_written :
    (∀ (lead : List Char) (items : List (Token × List Char)), (∀ c ∈ lead, isLayout c) →
      (∀ i ∈ items, i.1.Valid) → Spaced items →
      (scan (String.ofList (lead ++ written items))).errors = #[] ∧
        (scan (String.ofList (lead ++ written items))).tokens.toList.map Token.content =
          items.map (fun i => i.1.content) ++ [(.endOfInput, "", .nil)]) ∧
    ∀ source : String,
      let lexemes := (scan source).tokens.toList.map (·.lexeme)
      ∀ text ∈ [" ".intercalate lexemes, " ".intercalate lexemes.dropLast],
        (scan text).errors = #[] ∧
          (scan text).tokens.toList.map Token.content =
            (scan source).tokens.toList.map Token.content := by
  refine ⟨fun lead items hlead hvalid hspaced => scan_written hlead hvalid hspaced, ?_⟩
  intro source lexemes text htext
  have hvalid := (segmentation_pieces _ source.toList le_rfl).valid 1
  have hlexemes : lexemes = (tokensFrom 1 (pieces source.toList)).map (·.lexeme) ++ [""] := by
    simp [lexemes, tokens_scan]
  rw [hlexemes, List.dropLast_concat] at htext
  obtain ⟨items, hitems, hspaced, rfl⟩ := exists_spaced _ _ htext
  obtain ⟨herrors, htokens⟩ := scan_written (List.forall_mem_nil _)
    (fun i hi => hvalid _ (hitems ▸ List.mem_map_of_mem hi)) hspaced
  refine ⟨herrors, htokens.trans ?_⟩
  rw [tokens_scan, ← hitems]
  simp [Token.content]

/-- Two signs that would make up one without the layout between them, and a
string with two slashes and a line end inside. -/
def signsApart : List (Token × List Char) :=
  [(⟨.equal, "=", .nil, 1⟩, ['\t', '\r']), (⟨.equal, "=", .nil, 1⟩, ['\n']),
   (⟨.string, "\"//\n\"", .string "//\n", 2⟩, [])]

/-- They are three tokens again. -/
theorem signsApart_rescanned :
    (∀ i ∈ signsApart, i.1.Valid) ∧ Spaced signsApart ∧
      (scan (String.ofList ([' '] ++ written signsApart))).errors = #[] ∧
      (scan (String.ofList ([' '] ++ written signsApart))).tokens.toList.map Token.content =
        [(.equal, "=", .nil), (.equal, "=", .nil), (.string, "\"//\n\"", .string "//\n"),
          (.endOfInput, "", .nil)] := by
  have hequal : Token.Valid ⟨.equal, "=", .nil, 1⟩ :=
    ⟨.sign (by decide), .plain (by decide) (by decide)⟩
  have hstring : Token.Valid ⟨.string, "\"//\n\"", .string "//\n", 2⟩ := by
    have hquoted : "\"//\n\"".toList = '"' :: ['/', '/', '\n'] ++ ['"'] := by simp
    have hinside : "//\n" = String.ofList ['/', '/', '\n'] := by decide
    constructor
    · rw [hquoted]
      exact .string (by decide)
    · rw [hquoted, hinside]
      exact .string
  have hvalid : ∀ i ∈ signsApart, i.1.Valid := by simp [signsApart, hequal, hstring]
  have hspaced : Spaced signsApart := ⟨by simp [signsApart, isLayout], by simp [signsApart]⟩
  have hlead : ∀ c ∈ [' '], isLayout c := by simp [isLayout]
  obtain ⟨herrors, htokens⟩ := rescan_written.1 [' '] signsApart hlead hvalid hspaced
  exact ⟨hvalid, hspaced, herrors, htokens.trans (by simp [signsApart, Token.content])⟩

end Treewalk
