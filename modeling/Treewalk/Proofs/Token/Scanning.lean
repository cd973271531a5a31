import Treewalk.Proofs.Token.Segmentation
import Mathlib.Algebra.GroupWithZero.Nat

/-!
# What scanning makes of a segmentation

Scanning folds over the segments of a text and counts lines. Here the fold
is opened: the tokens are those of the lexemes, each with the line its
segment ends on, and the errors are those of the faulty segments. With the
segmentation being unique, `scan_exact` says what scanning a source yields,
for every source.
-/

namespace Treewalk

namespace Segment

/-! ## The fold, opened -/

/-- The tokens of segments that start on `line`. -/
def tokensFrom : Nat → List Segment → List Token
  | _, [] => []
  | line, s :: rest =>
    (s.token? (line + s.newlines)).toList ++ tokensFrom (line + s.newlines) rest

/-- The errors of segments that start on `line`. -/
def errorsFrom : Nat → List Segment → List SyntaxError
  | _, [] => []
  | line, s :: rest =>
    (s.fault?.map fun f => ⟨line + s.newlines, f.message, ""⟩).toList ++
      errorsFrom (line + s.newlines) rest

/-- The number of line ends in segments. -/
def newlinesIn (segments : List Segment) : Nat := (segments.map newlines).sum

end Segment

open Segment

theorem Scan.tokens_foldl_add (segments : List Segment) (s : Scan) :
    (segments.foldl Scan.add s).tokens.toList = s.tokens.toList ++ tokensFrom s.line segments := by
  induction segments generalizing s with
  | nil => simp [tokensFrom]
  | cons segment rest ih =>
    rw [List.foldl_cons, ih, tokensFrom, ← List.append_assoc]
    congr 1
    rw [Scan.add]
    cases segment.token? (s.line + segment.newlines) <;> simp

theorem Scan.errors_foldl_add (segments : List Segment) (s : Scan) :
    (segments.foldl Scan.add s).errors.toList = s.errors.toList ++ errorsFrom s.line segments := by
  induction segments generalizing s with
  | nil => simp [errorsFrom]
  | cons segment rest ih =>
    rw [List.foldl_cons, ih, errorsFrom, ← List.append_assoc]
    congr 1
    rw [Scan.add]
    cases segment.fault? <;> simp

theorem Scan.line_foldl_add (segments : List Segment) (s : Scan) :
    (segments.foldl Scan.add s).line = s.line + newlinesIn segments := by
  induction segments generalizing s with
  | nil => simp [newlinesIn]
  | cons segment rest ih =>
    rw [List.foldl_cons, ih, Scan.add, newlinesIn, newlinesIn, List.map_cons, List.sum_cons,
      Nat.add_assoc]

/-- The tokens of a source: those of its segments, and the mark. -/
theorem tokens_scan (source : String) :
    (scan source).tokens.toList = tokensFrom 1 (pieces source.toList) ++
      [⟨.endOfInput, "", .nil, ((1 + newlinesIn (pieces source.toList) : Nat) : Int)⟩] := by
  rw [scan, Scan.finish, Array.toList_push, ← Array.foldl_toList, Scan.tokens_foldl_add,
    Scan.line_foldl_add]
  rfl

/-- The errors of a source: those of its segments. -/
theorem errors_scan (source : String) :
    (scan source).errors.toList = errorsFrom 1 (pieces source.toList) := by
  rw [scan, Scan.finish, ← Array.foldl_toList, Scan.errors_foldl_add]
  rfl

namespace Segment

/-! ## Tokens carry what their lexemes say -/

/-- The value that a lexeme stands for: the text between the quotes of a
string, the machine number nearest to a numeral, and nothing for any other
lexeme. -/
inductive Denotes : Kind → List Char → Value → Prop
  | string {inside : List Char} :
      Denotes .string ('"' :: inside ++ ['"']) (.string (String.ofList inside))
  | whole {digits : List Char} :
      Digits digits → Denotes .number digits (.number (Decimal.ofDigits digits []).toFloat)
  | fraction {digits decimals : List Char} :
      Digits digits → Digits decimals →
      Denotes .number (digits ++ '.' :: decimals)
        (.number (Decimal.ofDigits digits decimals).toFloat)
  | plain {kind : Kind} {text : List Char} :
      kind ≠ .string → kind ≠ .number → Denotes kind text .nil

/-- A token with the kind, the text and the value of a lexeme. -/
def Carries (lexeme : Kind × List Char) (t : Token) : Prop :=
  t.kind = lexeme.1 ∧ t.lexeme = String.ofList lexeme.2 ∧ Denotes lexeme.1 lexeme.2 t.literal

/-- The lexeme that a segment is. -/
def lexeme? : Segment → Option (Kind × List Char)
  | token kind lexeme => some (kind, lexeme)
  | _ => none

/-- What is to be said about a segment. -/
def complaint? : Segment → Option String
  | unexpected _ => some "Unexpected character."
  | unterminated _ => some "Unterminated string."
  | _ => none

/-- Words are neither strings nor numerals nor the mark at the end. -/
theorem ofWord_ne (word : String) : Kind.ofWord word ≠ .string ∧ Kind.ofWord word ≠ .number ∧
    Kind.ofWord word ≠ .endOfInput := by
  have hkeywords : ∀ p ∈ Kind.keywords, p.2 ≠ .string ∧ p.2 ≠ .number ∧ p.2 ≠ .endOfInput := by
    decide
  unfold Kind.ofWord Kind.keyword?
  -- a word is in the table, or it is an identifier
  cases h : Kind.keywords.lookup word with
  | none => exact ⟨nofun, nofun, nofun⟩
  | some kind =>
    obtain ⟨before, after, heq, -⟩ := List.lookup_eq_some_iff.1 h
    exact hkeywords (word, kind) (heq ▸ by simp)

/-- Nor are signs. -/
theorem signs_ne : ∀ p ∈ signs, p.2 ≠ .string ∧ p.2 ≠ .number ∧ p.2 ≠ .endOfInput := by
  decide

theorem literal_of_ne {kind : Kind} (lexeme : List Char) (hstring : kind ≠ .string)
    (hnumber : kind ≠ .number) : literal kind lexeme = .nil := by
  unfold literal
  split
  · exact absurd rfl hstring
  · exact absurd rfl hnumber
  · rfl

/-- A token is given the value its lexeme stands for. -/
theorem Denotes.literal_eq {kind : Kind} {lexeme : List Char} {value : Value}
    (h : Denotes kind lexeme value) : literal kind lexeme = value := by
  cases h with
  | string => simp [literal]
  | whole hdigits =>
    have htake := List.takeWhile_eq_self_iff.2 hdigits.2
    have hdrop := List.dropWhile_eq_nil_iff.2 hdigits.2
    rw [literal, htake, hdrop]
    rfl
  | fraction hdigits hdecimals =>
    -- the point is no digit, so the digits in front of it end there
    have hdot : Number.isDigit '.' = false := by decide
    rw [literal, List.takeWhile_append_of_pos hdigits.2, List.dropWhile_append_of_pos hdigits.2,
      List.takeWhile_cons_of_neg (by simp [hdot]), List.dropWhile_cons_of_neg (by simp [hdot]),
      List.append_nil]
    rfl
  | plain hstring hnumber => exact literal_of_ne _ hstring hnumber

/-- Every lexeme stands for a value. -/
theorem Lexeme.exists_denotes {kind : Kind} {lexeme : List Char} (h : Lexeme kind lexeme) :
    ∃ value, Denotes kind lexeme value := by
  cases h with
  | sign hmem =>
    obtain ⟨hstring, hnumber, -⟩ := signs_ne _ hmem
    exact ⟨_, .plain hstring hnumber⟩
  | string _ => exact ⟨_, .string⟩
  | whole hdigits => exact ⟨_, .whole hdigits⟩
  | fraction hdigits hdecimals => exact ⟨_, .fraction hdigits hdecimals⟩
  | word _ _ =>
    obtain ⟨hstring, hnumber, -⟩ := ofWord_ne (String.ofList _)
    exact ⟨_, .plain hstring hnumber⟩

theorem denotes_literal {kind : Kind} {lexeme : List Char} (h : Lexeme kind lexeme) :
    Denotes kind lexeme (literal kind lexeme) := by
  obtain ⟨value, hvalue⟩ := h.exists_denotes
  exact hvalue.literal_eq.symm ▸ hvalue

theorem Lexeme.ne_endOfInput {kind : Kind} {lexeme : List Char} (h : Lexeme kind lexeme) :
    kind ≠ .endOfInput := by
  cases h with
  | sign hmem => exact (signs_ne _ hmem).2.2
  | word _ _ => exact (ofWord_ne _).2.2
  | _ => nofun

/-- The tokens of a segmentation are its lexemes, in order. -/
theorem Segmentation.forall₂_carries {cs : List Char} {segments : List Segment}
    (h : Segmentation cs segments) (line : Nat) :
    List.Forall₂ Carries (segments.filterMap lexeme?) (tokensFrom line segments) := by
  induction h generalizing line with
  | nil => exact .nil
  | @cons s _ _ hfits _ _ ih =>
    cases s with
    | token kind lexeme => exact .cons ⟨rfl, rfl, denotes_literal hfits⟩ (ih _)
    | _ => exact ih _

theorem Segmentation.kind_ne_endOfInput {cs : List Char} {segments : List Segment}
    (h : Segmentation cs segments) (line : Nat) :
    ∀ t ∈ tokensFrom line segments, t.kind ≠ .endOfInput := by
  induction h generalizing line with
  | nil => exact List.forall_mem_nil _
  | @cons s _ _ hfits _ _ ih =>
    cases s with
    | token kind lexeme =>
      rintro t (_ | ⟨_, ht⟩)
      · exact Lexeme.ne_endOfInput hfits
      · exact ih _ t ht
    | _ => exact ih _

theorem messages_errorsFrom (segments : List Segment) (line : Nat) :
    (errorsFrom line segments).map (·.message) = segments.filterMap complaint? := by
  induction segments generalizing line with
  | nil => rfl
  | cons s rest ih =>
    rw [errorsFrom, List.map_append, ih]
    cases s <;> rfl

end Segment

/-- **Scanning is maximal munch, and nothing is lost.** Every source has one
segmentation; its lexemes, in order, are the tokens that scanning yields in
front of the one mark at the end, with their kinds, texts and values; and
the errors are one for each unexpected character and each string that is
never closed, in order. -/
theorem scan_exact (source : String) :
    ∃ segments, Segmentation source.toList segments ∧
      (∀ others, Segmentation source.toList others → others = segments) ∧
      (segments.map Segment.text).flatten = source.toList ∧
      (∃ tokens mark, (scan source).tokens.toList = tokens ++ [mark] ∧
        List.Forall₂ Carries (segments.filterMap lexeme?) tokens ∧
        (∀ t ∈ tokens, t.kind ≠ .endOfInput) ∧
        mark.kind = .endOfInput ∧ mark.lexeme = "" ∧ mark.literal = .nil) ∧
      (scan source).errors.toList.map (·.message) = segments.filterMap complaint? := by
  have hsegmentation := segmentation_pieces _ source.toList le_rfl
  refine ⟨pieces source.toList, hsegmentation, fun _ h => h.eq_pieces,
    hsegmentation.flatten_text, ⟨_, _, tokens_scan source, ?_, ?_, rfl, rfl, rfl⟩, ?_⟩
  · exact hsegmentation.forall₂_carries 1
  · exact hsegmentation.kind_ne_endOfInput 1
  · rw [errors_scan, messages_errorsFrom]

end Treewalk
