import Treewalk.Proofs.Grammar.Mark
import Treewalk.Proofs.Grammar.Nesting
import Treewalk.Proofs.Prompt.CommandWords

/-!
# Complete entries are run

A prompt keeps an entry pending by counting its brackets, and knows nothing of
the grammar. It never keeps one that is complete: the brackets of a program
are well nested, so those of each kind are equal in number, and counting finds
nothing open. Read the other way, a text that is still pending cannot be read
without error, at any depth.
-/

namespace Treewalk

open Segment Nesting

/-- **The brackets of what is read without error** are well nested. -/
theorem wellNested_of_parse {depth : ℕ} {front : List Token} {mark : Token}
    (hfront : ∀ t ∈ front, t.kind ≠ .endOfInput) (hmark : mark.kind = .endOfInput)
    (h : (parse depth (front ++ [mark])).errors = #[]) :
    WellNested ((front ++ [mark]).map (·.kind)) := by
  have hprogram := program_of_parse h
  rw [programTokens_append hfront, programTokens_mark hmark, List.append_nil] at hprogram
  exact (hprogram.balanced.append (Grammar.balanced_singleton hmark (by decide))) []

/-- A source is read as tokens with a mark behind them. -/
theorem wellNested_of_parse_scan {depth : ℕ} {source : String}
    (h : (parse depth (scan source).tokens.toList).errors = #[]) :
    WellNested ((scan source).tokens.toList.map (·.kind)) := by
  have hfront := (segmentation_pieces _ source.toList le_rfl).kind_ne_endOfInput 1
  rw [tokens_scan] at h ⊢
  exact wellNested_of_parse hfront rfl h

namespace Prompt

variable {limits : Limits} {p : Prompt}

theorem isUnfinished_of_wellNested {source : String}
    (h : WellNested ((scan source).tokens.toList.map (·.kind))) : isUnfinished source = false := by
  have hparens := count_eq_of_wellNested .parens h
  have hbraces := count_eq_of_wellNested .braces h
  simp only [isUnfinished, ← Array.count_toList, Array.toList_map, hparens, hbraces]
  simp

/-- What the prompt holds, between two lines: nothing, or a text with an open
bracket. -/
def Holds (p : Prompt) : Prop := p.pending = "" ∨ isUnfinished p.pending = true

theorem Holds.react (h : p.Holds) (limits : Limits) (reaction : Reaction) :
    Holds (p.react limits reaction).2 := by
  cases reaction with
  | rest stop => exact h
  | say stop text => exact h
  | submit line =>
    simp only [Prompt.react, submit]
    split
    case isTrue hopen => exact .inr hopen
    case isFalse => exact .inl rfl

theorem Holds.enter (h : p.Holds) (limits : Limits) (line : String) :
    Holds (p.enter limits line).2 := by
  obtain ⟨reaction, hreaction⟩ := exists_reaction line p.pending.isEmpty
  rw [hreaction limits p rfl]
  exact h.react limits reaction

theorem Holds.enterAll (h : p.Holds) (limits : Limits) (lines : List String) :
    Holds (p.enterAll limits lines) := by
  induction lines generalizing p with
  | nil => exact h
  | cons line rest ih => exact ih (h.enter limits line)

/-- Conversations print a mark in front of each line, and end early where a
line asks to stop. -/
theorem Holds.converse (h : p.Holds) (limits : Limits) (lines : List String) :
    Holds (converse limits lines p) := by
  induction lines generalizing p with
  | nil => exact Holds.enter (p := p.say p.mark) h limits _
  | cons line rest ih =>
    have hnext : Holds ((p.say p.mark).enter limits line).2 :=
      Holds.enter (p := p.say p.mark) h limits line
    rw [Prompt.converse]
    split
    case h_1 next hstop =>
      rw [hstop] at hnext
      exact hnext
    case h_2 next hgoes =>
      rw [hgoes] at hnext
      exact ih hnext

theorem Holds.conduct (h : p.Holds) (limits : Limits) (greeting input : String) :
    Holds (p.conduct limits greeting input) := by
  unfold Prompt.conduct
  split
  · exact h.converse limits _
  · exact Holds.converse (p := p.say _) h limits _

theorem Reached.holds (h : Reached limits p) : p.Holds := by
  obtain ⟨colored, clock, painter, lines, rfl⟩ := h
  exact Holds.enterAll (.inl rfl) limits lines

theorem Holds.errors_ne (h : p.Holds) (hpending : p.pending ≠ "") (depth : ℕ) :
    (parse depth (scan p.pending).tokens.toList).errors ≠ #[] := by
  intro herrors
  have hfinished := isUnfinished_of_wellNested (wellNested_of_parse_scan herrors)
  rcases h with hempty | hopen
  · exact hpending hempty
  · rw [hfinished] at hopen
    exact Bool.false_ne_true hopen

/-- **The prompt never holds back a complete entry.** Of every token list with
the mark of the end only at its end that is read without error, the brackets
are well nested. So no source that is read without error has an open bracket,
and a line that completes such a source is run at once, with nothing pending
behind it. And whatever text the prompt keeps pending, behind any lines typed
since the start of a session or at the end of any conversation, is not read
without error. -/
theorem complete_entries_run (depth : ℕ) :
    (∀ (front : List Token) (mark : Token), (∀ t ∈ front, t.kind ≠ .endOfInput) →
        mark.kind = .endOfInput → (parse depth (front ++ [mark])).errors = #[] →
        WellNested ((front ++ [mark]).map (·.kind))) ∧
      (∀ source, (parse depth (scan source).tokens.toList).errors = #[] →
        isUnfinished source = false) ∧
      (∀ limits (p : Prompt) line, let source := p.pending ++ line ++ "\n"
        (parse depth (scan source).tokens.toList).errors = #[] →
        p.submit limits line = ⟨(p.session.run limits source).2.clear, "", firstMark⟩) ∧
      (∀ limits p, Reached limits p → p.pending ≠ "" →
        (parse depth (scan p.pending).tokens.toList).errors ≠ #[]) ∧
      (∀ limits session greeting input,
        let p := conduct limits { session := session } greeting input
        p.pending ≠ "" → (parse depth (scan p.pending).tokens.toList).errors ≠ #[]) := by
  have hfinished : ∀ source, (parse depth (scan source).tokens.toList).errors = #[] →
      isUnfinished source = false := fun source h =>
    isUnfinished_of_wellNested (wellNested_of_parse_scan h)
  refine ⟨fun front mark hfront hmark h => wellNested_of_parse hfront hmark h, hfinished,
    fun limits p line h => ?_, fun limits p hp hpending => hp.holds.errors_ne hpending depth,
    fun limits session greeting input hpending => ?_⟩
  · simp only [submit, hfinished _ h]
    rfl
  · have hstart : Holds { session := session } := .inl rfl
    exact (hstart.conduct limits greeting input).errors_ne hpending depth

/-- A declaration with brackets of both kinds in it is complete, and the same
one without its last brace stays pending. -/
theorem declaration_run_header_pending :
    let header := enterAll ⟨40, 8⟩ { session := .start false fun _ => 0 } ["fun f(a) \x7b", "g((a));"]
    (parse 40 (scan "fun f(a) \x7b g((a)); \x7d").tokens.toList).errors = #[] ∧
      isUnfinished "fun f(a) \x7b g((a)); \x7d" = false ∧
      header.pending = "fun f(a) \x7b\ng((a));\n" ∧
      (parse 40 (scan header.pending).tokens.toList).errors ≠ #[] := by
  intro header
  obtain ⟨-, hcomplete, -, hpending, -⟩ := complete_entries_run 40
  have herrors : (parse 40 (scan "fun f(a) \x7b g((a)); \x7d").tokens.toList).errors = #[] :=
    Parsed.errors_eq_empty.2 (by decide +kernel)
  have htext : header.pending = "fun f(a) \x7b\ng((a));\n" := by decide +kernel
  refine ⟨herrors, hcomplete _ herrors, htext, hpending ⟨40, 8⟩ header ⟨_, _, _, _, rfl⟩ ?_⟩
  rw [htext]
  decide

end Prompt

end Treewalk
