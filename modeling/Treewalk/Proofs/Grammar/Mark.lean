import Mathlib.Data.List.TakeWhile
import Treewalk.Proofs.Grammar.Locality

/-!
# Reading up to the mark

A token list is read as a whole, and reading stops at its first mark for the
end of input: a mark that is ahead of a cursor stays ahead, whatever is read
(`suffix_declaration`). To a reading the mark is no other than the end of the
list; so **a token list is read as the tokens in front of its first mark**,
but for the faults noted when no token of these is left, which are noted at
the mark.
-/

namespace Treewalk

/-! ## The tokens of a program -/

theorem programTokens_append_tail (tokens : List Token) :
    programTokens tokens ++ programTail tokens = tokens :=
  List.takeWhile_append_dropWhile

theorem length_programTokens_add_tail (tokens : List Token) :
    (programTokens tokens).length + (programTail tokens).length = tokens.length := by
  rw [← List.length_append, programTokens_append_tail]

open Reading

theorem unmarked_programTokens (tokens : List Token) : Unmarked (programTokens tokens) :=
  fun t ht => by simpa using List.mem_takeWhile_imp ht

theorem ends_programTail (tokens : List Token) : Ends (programTail tokens) := by
  intro t ht
  have hhead := List.head?_dropWhile_not (·.kind != .endOfInput) tokens
  rw [programTail] at ht
  rw [Option.mem_def.1 ht] at hhead
  simpa using hhead

/-- Tokens in front of those that a mark ends. -/
theorem programTokens_append {ts : List Token} (hts : Unmarked ts) (tokens : List Token) :
    programTokens (ts ++ tokens) = ts ++ programTokens tokens :=
  List.takeWhile_append_of_pos fun t ht => by simpa using hts t ht

theorem programTail_append {ts : List Token} (hts : Unmarked ts) (tokens : List Token) :
    programTail (ts ++ tokens) = programTail tokens :=
  List.dropWhile_append_of_pos fun t ht => by simpa using hts t ht

theorem programTokens_mark {mark : Token} (hmark : mark.kind = .endOfInput)
    (behind : List Token) : programTokens (mark :: behind) = [] :=
  List.takeWhile_cons_of_neg (by simp [hmark])

theorem programTail_mark {mark : Token} (hmark : mark.kind = .endOfInput)
    (behind : List Token) : programTail (mark :: behind) = mark :: behind :=
  List.dropWhile_cons_of_neg (by simp [hmark])

/-- A list with a mark has a first one. -/
theorem exists_programTail {tokens : List Token} (h : ∃ t ∈ tokens, t.kind = .endOfInput) :
    ∃ mark behind, programTail tokens = mark :: behind ∧ mark.kind = .endOfInput := by
  have hends := ends_programTail tokens
  cases htail : programTail tokens with
  | cons mark behind =>
    rw [htail, ends_cons] at hends
    exact ⟨mark, behind, rfl, hends⟩
  | nil =>
    have hall := programTokens_append_tail tokens
    rw [htail, List.append_nil] at hall
    obtain ⟨t, ht, hmark⟩ := h
    rw [← hall] at ht
    exact absurd hmark (unmarked_programTokens tokens t ht)

namespace Reading

/-! ## No further than the mark -/

/-- What is ahead of the first cursor at its end is ahead of the second. -/
def Holds (tail : List Token) (c c' : Cursor) : Prop := tail <:+ c.ahead → tail <:+ c'.ahead

/-- A mark behind the tokens of a program takes the place of the end of the
list. -/
theorem readAll_placed (depth : ℕ) (ts : List Token) {rest : List Token} (hrest : Ends rest) :
    readAll depth (ts ++ rest) =
      ((readAll depth ts).1, (readAll depth ts).2.placed rest #[]) :=
  readAll_of_finishes (finishes_readAll_placed depth ts hrest #[] List.length_append.ge)

theorem readAll_eq_program (depth : ℕ) (tokens : List Token) :
    readAll depth tokens = ((readAll depth (programTokens tokens)).1,
      (readAll depth (programTokens tokens)).2.placed (programTail tokens) #[]) := by
  have hread := readAll_placed depth (programTokens tokens) (ends_programTail tokens)
  rwa [programTokens_append_tail] at hread

end Reading

/-- **A token list is read as the tokens in front of its first mark.** -/
theorem parse_eq_program (depth : ℕ) (tokens : List Token) :
    parse depth tokens = ⟨(readAll depth (programTokens tokens)).1,
      (readAll depth (programTokens tokens)).2.faults.map
        (Fault.pushed (programTail tokens))⟩ := by
  rw [parse_eq, readAll_eq_program, Cursor.placed, Array.empty_append]

theorem parse_append_mark (depth : ℕ) {ts : List Token} {mark : Token} (hts : Unmarked ts)
    (hmark : mark.kind = .endOfInput) (behind : List Token) :
    parse depth (ts ++ mark :: behind) =
      ⟨(readAll depth ts).1, (readAll depth ts).2.faults.map (Fault.pushed (mark :: behind))⟩ := by
  rw [parse_eq_program, programTokens_append hts, programTokens_mark hmark, List.append_nil,
    programTail_append hts, programTail_mark hmark]

theorem statements_parse (depth : ℕ) (tokens : List Token) :
    (parse depth tokens).statements = (readAll depth (programTokens tokens)).1 := by
  rw [parse_eq_program]

theorem errors_parse_eq_empty {depth : ℕ} {tokens : List Token} :
    (parse depth tokens).errors = #[] ↔
      (readAll depth (programTokens tokens)).2.faults = #[] := by
  rw [Parsed.errors_eq_empty, parse_eq_program, Array.map_eq_empty_iff]

end Treewalk
