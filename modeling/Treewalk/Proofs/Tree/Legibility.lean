import Treewalk.Proofs.Grammar.Acceptance
import Treewalk.Proofs.Grammar.Plain
import Treewalk.Proofs.Token.Joining
import Treewalk.Proofs.Tree.Decoding

/-!
# What a dump tells

The trees of a source that is read without errors are well formed, and their
literals are constants, strings and unsigned numbers. If there is no string
among them, **a dump determines the tree** up to what erasing takes from it:
the lines, the tokens that only place an error, and the difference between a
grouping and a call of `group` and between an infinite literal and a variable
`inf`. A string is dumped without quotes and can look like anything.
-/

namespace Treewalk

open Segment

/-- What a token stands for is a string, or can be read back. -/
theorem Segment.Denotes.legible {kind : Kind} {text : List Char} {value : Value}
    (h : Denotes kind text value) : value.Legible ∨ ∃ inside, value = .string inside := by
  cases h with
  | string => exact .inr ⟨_, rfl⟩
  | whole _ | fraction _ _ => exact .inl (Number.unsigned_toFloat _)
  | plain _ _ => exact .inl trivial

section

variable {depth depth' : ℕ} {source source' : String} {s t : Stmt}

theorem legible_of_mem_parse
    (hmem : s ∈ (parse depth (scan source).tokens.toList).statements)
    (hstrings : ∀ text, .string text ∉ s.literals) : ∀ v ∈ s.literals, v.Legible := by
  have hvalid := (segmentation_pieces _ source.toList le_rfl).valid 1
  rw [statements_parse, programTokens_scan] at hmem
  have hliterals := (Reading.builds_literals (P := fun v => v.Legible ∨ ∃ text, v = .string text)
    (fun _ => .inl trivial) (.inl trivial)).readAll
    (fun t ht => (hvalid t ht).literal.legible) depth s hmem
  intro v hv
  rcases hliterals v hv with h | ⟨text, rfl⟩
  · exact h
  · exact absurd hv (hstrings text)

/-- The form of a statement that is read is clean, and is read back. -/
theorem decode_of_mem_parse (herrors : (parse depth (scan source).tokens.toList).errors = #[])
    (hmem : s ∈ (parse depth (scan source).tokens.toList).statements)
    (hstrings : ∀ text, .string text ∉ s.literals) :
    s.form.Clean ∧ s.form.stmt = s.erase := by
  have hvalid := (segmentation_pieces _ source.toList le_rfl).valid 1
  have hprogram := program_of_parse herrors
  rw [programTokens_scan] at hprogram
  have hsupplies : Grammar.Supplies Suits (tokensFrom 1 (pieces source.toList)) :=
    fun t ht _ hkind => ⟨hvalid t ht, hkind⟩
  have hlike := hprogram.like hsupplies
  rw [List.forall₂_same] at hlike
  exact Stmt.Like.decode s s (hlike s hmem) (legible_of_mem_parse hmem hstrings)

/-- **A dump determines the tree**, up to what erasing takes from it. Two
statements without strings, of sources that are read without errors, have
dumps from their heights on; and two dumps of them are the same if and only if
erasing leaves the same of both. -/
theorem dump_eq_iff_erase_eq (herrors : (parse depth (scan source).tokens.toList).errors = #[])
    (herrors' : (parse depth' (scan source').tokens.toList).errors = #[])
    (hs : s ∈ (parse depth (scan source).tokens.toList).statements)
    (ht : t ∈ (parse depth' (scan source').tokens.toList).statements)
    (hstrings : ∀ text, .string text ∉ s.literals)
    (hstrings' : ∀ text, .string text ∉ t.literals) :
    (∀ room, s.height ≤ room → ∃ text, s.dump room = .ok text) ∧
      (∀ room, t.height ≤ room → ∃ text, t.dump room = .ok text) ∧
      ∀ room room' text text', s.dump room = .ok text → t.dump room' = .ok text' →
        (text = text' ↔ s.erase = t.erase) := by
  refine ⟨dumpable_of_mem_parse hs, dumpable_of_mem_parse ht, ?_⟩
  intro room room' text text' hdump hdump'
  obtain ⟨hclean, hstmt⟩ := decode_of_mem_parse herrors hs hstrings
  obtain ⟨hclean', hstmt'⟩ := decode_of_mem_parse herrors' ht hstrings'
  have hwritten : text.toList = s.form.render := (gives_dump room).2 s text hdump
  have hwritten' : text'.toList = t.form.render := (gives_dump room').2 t text' hdump'
  constructor
  · rintro rfl
    have hform := Form.eq_of_render_eq hclean hclean' (hwritten.symm.trans hwritten')
    rw [← hstmt, ← hstmt', hform]
  · intro herase
    have hform : s.form = t.form := by rw [← s.form_erase, ← t.form_erase, herase]
    rw [← String.toList_inj, hwritten, hwritten', hform]

end

/-- A call of a grouping, over two lines, and a call of what the function
`group` gives have the same dump. -/
theorem grouping_dumped_as_call :
    ∃ s ∈ (parse 40 (scan "(f)\n(2.50);").tokens.toList).statements,
      ∃ t ∈ (parse 40 (scan "group(f)(2.5);").tokens.toList).statements,
        s.dump 8 = .ok "(; ((group f) 2.5))" ∧ t.dump 8 = .ok "(; ((group f) 2.5))" ∧
          s.erase = t.erase := by
  have hboth : ∀ source ∈ ["(f)\n(2.50);", "group(f)(2.5);"],
      (parse 40 (scan source).tokens.toList).errors = #[] ∧
        (parse 40 (scan source).tokens.toList).statements.map (fun s => s.dump 8) =
          [.ok "(; ((group f) 2.5))"] ∧
        ((parse 40 (scan source).tokens.toList).statements.flatMap Stmt.literals).all
          (fun v => v.equals (.number 2.5)) = true := by decide +kernel
  have hread : ∀ source ∈ ["(f)\n(2.50);", "group(f)(2.5);"],
      ∃ s ∈ (parse 40 (scan source).tokens.toList).statements,
        s.dump 8 = .ok "(; ((group f) 2.5))" ∧ ∀ text, .string text ∉ s.literals := by
    intro source hsource
    obtain ⟨-, hdumps, hnumbers⟩ := hboth source hsource
    obtain ⟨s, hstatements, hdump⟩ := List.map_eq_singleton_iff.1 hdumps
    rw [hstatements] at hnumbers ⊢
    refine ⟨s, List.mem_singleton_self s, hdump, fun text hmem => ?_⟩
    have hnumber := List.all_eq_true.1 hnumbers (.string text) (by simpa using hmem)
    cases hnumber
  obtain ⟨s, hs, hdump, hstrings⟩ := hread "(f)\n(2.50);" (by simp)
  obtain ⟨t, ht, hdump', hstrings'⟩ := hread "group(f)(2.5);" (by simp)
  obtain ⟨-, -, hiff⟩ := dump_eq_iff_erase_eq (hboth _ (by simp)).1 (hboth _ (by simp)).1 hs ht
    hstrings hstrings'
  exact ⟨s, hs, t, ht, hdump, hdump', (hiff 8 8 _ _ hdump hdump').1 rfl⟩

end Treewalk
