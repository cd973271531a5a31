import Treewalk.Prompt
import Mathlib.Data.List.Basic
import Mathlib.Data.List.Induction
import Mathlib.Data.List.Infix

/-!
# Lines and entries

Where lines are cut into entries: behind each line at which the text since
the last cut has no open brace or parenthesis. `Divides` says this of blocks
of lines, with no word on how they are found. Every list of lines can be cut
that way (`exists_divides`), and in one way only. Whoever gathers lines and
hands on each block as soon as it is finished hands on these blocks, and has
this rest left (`Divides.foldl_gather`).
-/

namespace Treewalk

namespace Prompt

/-- The text of lines, each with a line end. -/
def textOf (lines : List String) : String := String.join (lines.map (· ++ "\n"))

/-- The text is unfinished behind each of the lines. -/
def StaysOpen (lines : List String) : Prop :=
  ∀ part, part <+: lines → part ≠ [] → isUnfinished (textOf part) = true

/-- Lines that make up an entry: their text is finished behind the last of
them, and behind no other one. -/
structure IsEntry (block : List String) : Prop where
  nonempty : block ≠ []
  pending : StaysOpen block.dropLast
  finished : isUnfinished (textOf block) = false

/-- Lines cut into the blocks of entries, and a rest that is no entry yet. -/
structure Divides (lines : List String) (blocks : List (List String)) (rest : List String) :
    Prop where
  joined : blocks.flatten ++ rest = lines
  entries : ∀ block ∈ blocks, IsEntry block
  pending : StaysOpen rest

variable {lines rest : List String} {blocks : List (List String)}

instance : Decidable (StaysOpen lines) :=
  decidable_of_iff (∀ part ∈ lines.inits, part ≠ [] → isUnfinished (textOf part) = true) <| by
    simp only [StaysOpen, List.mem_inits]

instance {block : List String} : Decidable (IsEntry block) :=
  decidable_of_iff (block ≠ [] ∧ StaysOpen block.dropLast ∧ isUnfinished (textOf block) = false)
    ⟨fun h => ⟨h.1, h.2.1, h.2.2⟩, fun h => ⟨h.nonempty, h.pending, h.finished⟩⟩

instance : Decidable (Divides lines blocks rest) :=
  decidable_of_iff (blocks.flatten ++ rest = lines ∧ (∀ block ∈ blocks, IsEntry block) ∧
      StaysOpen rest)
    ⟨fun h => ⟨h.1, h.2.1, h.2.2⟩, fun h => ⟨h.joined, h.entries, h.pending⟩⟩

theorem textOf_concat (lines : List String) (line : String) :
    textOf (lines ++ [line]) = textOf lines ++ line ++ "\n" := by
  simp [textOf, String.join_append, String.join_cons, String.append_assoc]

theorem staysOpen_nil : StaysOpen [] := fun _ hpart hne => absurd (List.prefix_nil.1 hpart) hne

theorem staysOpen_concat {line : String} (h : StaysOpen lines)
    (hline : isUnfinished (textOf (lines ++ [line])) = true) : StaysOpen (lines ++ [line]) := by
  intro part hpart hne
  rcases List.prefix_concat_iff.1 hpart with rfl | hpart
  · exact hline
  · exact h part hpart hne

theorem IsEntry.divides {block : List String} (h : IsEntry block) : Divides block [block] [] where
  joined := by simp
  entries := List.forall_mem_singleton.2 h
  pending := staysOpen_nil

/-- **All lines can be cut.** -/
theorem exists_divides (lines : List String) : ∃ blocks rest, Divides lines blocks rest := by
  induction lines using List.reverseRecOn with
  | nil => exact ⟨[], [], rfl, nofun, staysOpen_nil⟩
  | append_singleton lines line ih =>
    obtain ⟨blocks, rest, rfl, hentries, hpending⟩ := ih
    -- the new line finishes the pending lines, or is pending with them
    cases hline : isUnfinished (textOf (rest ++ [line])) with
    | true => exact ⟨blocks, rest ++ [line], by simp, hentries, staysOpen_concat hpending hline⟩
    | false =>
      refine ⟨blocks ++ [rest ++ [line]], [], by simp, ?_, staysOpen_nil⟩
      refine List.forall_mem_append.2 ⟨hentries, List.forall_mem_singleton.2 ⟨by simp, ?_, hline⟩⟩
      rwa [List.dropLast_concat]

/-! ## Gathering lines -/

variable {σ : Type}

/-- Takes one more line to the pending ones, and hands them on as soon as
their text is finished. -/
def gather (finish : σ → List String → σ) (state : σ × List String) (line : String) :
    σ × List String :=
  let lines := state.2 ++ [line]
  if isUnfinished (textOf lines) then (state.1, lines) else (finish state.1 lines, [])

theorem foldl_gather_of_staysOpen (finish : σ → List String → σ) (s : σ) (h : StaysOpen lines) :
    lines.foldl (gather finish) (s, []) = (s, lines) := by
  induction lines using List.reverseRecOn with
  | nil => rfl
  | append_singleton lines line ih =>
    have hlines : StaysOpen lines := fun part hpart => h part (hpart.trans (List.prefix_append ..))
    have hopen : isUnfinished (textOf (lines ++ [line])) = true := h _ List.prefix_rfl (by simp)
    rw [List.foldl_concat, ih hlines, gather, if_pos hopen]

theorem IsEntry.foldl_gather {block : List String} (h : IsEntry block)
    (finish : σ → List String → σ) (s : σ) :
    block.foldl (gather finish) (s, []) = (finish s block, []) := by
  obtain ⟨hne, hpending, hfinished⟩ := h
  have hlast := List.dropLast_concat_getLast hne
  rw [← hlast, List.foldl_concat, foldl_gather_of_staysOpen finish s hpending, gather, hlast]
  simp [hfinished]

/-- **Whoever gathers lines** hands on the blocks of their division, in order,
and keeps the rest. -/
theorem Divides.foldl_gather (h : Divides lines blocks rest) (finish : σ → List String → σ)
    (s : σ) :
    lines.foldl (gather finish) (s, []) = (blocks.foldl finish s, rest) := by
  obtain ⟨rfl, hentries, hpending⟩ := h
  induction blocks generalizing s with
  | nil => exact foldl_gather_of_staysOpen finish s hpending
  | cons block blocks ih =>
    obtain ⟨hblock, hblocks⟩ := List.forall_mem_cons.1 hentries
    rw [List.flatten_cons, List.append_assoc, List.foldl_append, hblock.foldl_gather]
    exact ih (finish s block) hblocks

/-- **Lines can be cut in one way only.** -/
theorem Divides.unique {blocks' : List (List String)} {rest' : List String}
    (h : Divides lines blocks rest) (h' : Divides lines blocks' rest') :
    blocks' = blocks ∧ rest' = rest := by
  have hlist (bs : List (List String)) : bs.foldl (fun done b => done ++ [b]) [] = bs := by
    induction bs using List.reverseRecOn with
    | nil => rfl
    | append_singleton bs b ih => rw [List.foldl_concat, ih]
  -- gather the blocks themselves
  have hsame := (h'.foldl_gather (fun done b => done ++ [b]) []).symm.trans
    (h.foldl_gather (fun done b => done ++ [b]) [])
  rw [hlist, hlist] at hsame
  exact Prod.mk.inj hsame

end Prompt

end Treewalk
