import Mathlib
import Treewalk.Proofs.Grammar.Mark
import Treewalk.Proofs.Grammar.Soundness
import Treewalk.Proofs.Grammar.Tracking

/-!
# The language of programs

A token list is read without error exactly when it is a program of the
grammar, and the statements that come out are the tree of its derivation.
Nesting too deep is the one thing that the grammar does not know about; it
is reported as a fault of its own, and where there is none the depth that
was allowed does not matter.
-/

namespace Treewalk

open Grammar

namespace Reading

open Filter

variable {depth : ℕ} {ts : List Token} {program : List Stmt}

/-! ## Rows of declarations -/

/-- What is read without a fault is a row of declarations. -/
theorem inRow_of_readAll (hts : Unmarked ts) (h : (readAll depth ts).2.faults = #[]) :
    InRow (RecognizedDecl depth) 0 ts (readAll depth ts).1 := by
  have hitem : YieldsItem ts.length (declaration ts.length depth) (RecognizedDecl depth) := by
    rw [declaration_eq]
    exact (yields_forms depth ts.length).1.recovering
  have hrun : declarations Cursor.atEnd (declaration ts.length depth) ts.length []
      { ahead := ts } = ((readAll depth ts).1, (readAll depth ts).2) := rfl
  obtain ⟨us, more, hus, -, hmore, hrow, -⟩ :=
    hitem.declarations (fun _ _ _ => RecognizedDecl.length_pos) Cursor.atEnd ts.length []
      (Nat.le_refl _) (Nat.le_refl _) hrun h
  -- outside of blocks only the end of the tokens stops the reader
  rw [ahead_readAll depth hts, List.append_nil] at hus
  have hus : ts = us := hus
  rw [hmore, hus]
  exact hrow

/-- **A row of declarations is read** without a fault. -/
theorem readAll_of_inRow (h : InRow (RecognizedDecl depth) 0 ts program) :
    readAll depth ts = (program, { ahead := [] }) := by
  obtain ⟨parts, rfl, rfl, hparts⟩ := h
  have hstarts : ∀ p ∈ parts, Starts declarationStarts p.1 := fun p hp =>
    (hparts p hp).derives.starts
  obtain ⟨hcount, hlength⟩ := length_parts_le_flatMap hstarts
  have hgo : ∀ p ∈ parts, ∀ rest', Cursor.atEnd ⟨p.1 ++ rest', #[], 0⟩ = false := by
    intro p hp rest'
    exact (hstarts p hp).atEnd (by decide) rest' #[] 0
  have hitem : ∀ p ∈ parts, ∀ rest', Stops [.kwElse] rest' →
      declaration (parts.flatMap (·.1)).length depth ⟨p.1 ++ rest', #[], 0⟩ =
        (some p.2, ⟨rest', #[], 0⟩) := fun p hp rest' hstop =>
    declaration_of_reads (hparts p hp).reads (hlength p hp) hstop #[] nofun
  have hrun := declarations_parts #[] 0 rfl (stops_nil _) parts _ [] hcount hstarts hgo hitem
  rw [List.append_nil] at hrun
  exact hrun

theorem program_of_inRow (h : InRow (RecognizedDecl depth) 0 ts program) : Program ts program := by
  obtain ⟨parts, hts, hprogram, hparts⟩ := h
  exact ⟨parts, fun p hp => (hparts p hp).derives, hts, hprogram⟩

/-- A program of the grammar is a row of declarations at all large depths. -/
theorem eventually_inRow (h : Program ts program) :
    ∀ᶠ d in atTop, InRow (RecognizedDecl d) 0 ts program := by
  obtain ⟨parts, hparts, rfl, rfl⟩ := h
  filter_upwards [eventually_forall_mem fun p hp => eventually_readsForm (hparts p hp)] with d hd
  exact ⟨parts, rfl, rfl, fun p hp => ⟨hparts p hp, hd p hp⟩⟩

/-- Where no declaration nests too deep, the depth does not matter. -/
theorem readAll_of_le {depth' : ℕ} (hle : depth ≤ depth') (h : ¬ Overrun (readAll depth ts).2) :
    readAll depth' ts = readAll depth ts := by
  have hid : Faithful id := ⟨fun _ => rfl, fun _ => rfl⟩
  have hmap := readAll_map hid hle ts h
  have hcursor : (readAll depth ts).2.relabel id = (readAll depth ts).2 := by
    have hfault : Fault.relabel id = id := by
      funext x
      simp [Fault.relabel]
    simp [Cursor.relabel, hfault]
  have hstmt : Stmt.relabel id = id := funext Stmt.relabel_id
  rw [List.map_id, hstmt, List.map_id, hcursor] at hmap
  exact hmap

end Reading

/-! ## Programs -/

/-- What is read without error is a program of the grammar. -/
theorem program_of_parse {depth : ℕ} {tokens : List Token}
    (h : (parse depth tokens).errors = #[]) :
    Program (programTokens tokens) (parse depth tokens).statements := by
  rw [errors_parse_eq_empty] at h
  rw [statements_parse]
  exact Reading.program_of_inRow (Reading.inRow_of_readAll (unmarked_programTokens tokens) h)

/-- **The reader accepts exactly the grammar, and builds the tree of the
derivation.** Where no declaration nests too deep, the tokens up to the first
mark for the end of input are a program of the grammar with a given tree if
and only if they are read without error as that tree. -/
theorem program_iff_parse (depth : ℕ) (tokens : List Token)
    (hdepth : ∀ x ∈ (parse depth tokens).faults, x.cause ≠ .nestingTooDeep)
    (program : List Stmt) :
    Program (tokens.takeWhile (·.kind != .endOfInput)) program ↔
      (parse depth tokens).errors = #[] ∧ (parse depth tokens).statements = program := by
  have hshallow : ¬ Reading.Overrun (Reading.readAll depth (programTokens tokens)).2 := by
    rintro ⟨x, hx, hcause⟩
    refine hdepth (x.pushed (programTail tokens)) ?_ hcause
    rw [parse_eq_program]
    exact Array.mem_map_of_mem (Array.mem_toList_iff.1 hx)
  rw [errors_parse_eq_empty, statements_parse]
  constructor
  · intro h
    -- read it at a depth that is large enough for the derivation
    obtain ⟨d, hd⟩ := (Filter.eventually_atTop.1 (Reading.eventually_inRow h))
    have hread := Reading.readAll_of_inRow (hd (max d depth) (le_max_left _ _))
    have hsame := Reading.readAll_of_le (le_max_right d depth) hshallow
    have hboth : Reading.readAll depth (programTokens tokens) = (program, { ahead := [] }) :=
      hsame.symm.trans hread
    rw [hboth]
    exact ⟨rfl, rfl⟩
  · rintro ⟨hfaults, rfl⟩
    exact Reading.program_of_inRow
      (Reading.inRow_of_readAll (unmarked_programTokens tokens) hfaults)

/-- The tokens of `if (a) if (-a) print a; else a = a;`, all on one line. -/
def nestedIf : List Token :=
  [⟨.kwIf, "if", .nil, 1⟩, ⟨.leftParen, "(", .nil, 1⟩, ⟨.identifier, "a", .nil, 1⟩,
   ⟨.rightParen, ")", .nil, 1⟩, ⟨.kwIf, "if", .nil, 1⟩, ⟨.leftParen, "(", .nil, 1⟩,
   ⟨.minus, "-", .nil, 1⟩, ⟨.identifier, "a", .nil, 1⟩, ⟨.rightParen, ")", .nil, 1⟩,
   ⟨.kwPrint, "print", .nil, 1⟩, ⟨.identifier, "a", .nil, 1⟩, ⟨.semicolon, ";", .nil, 1⟩,
   ⟨.kwElse, "else", .nil, 1⟩, ⟨.identifier, "a", .nil, 1⟩, ⟨.equal, "=", .nil, 1⟩,
   ⟨.identifier, "a", .nil, 1⟩, ⟨.semicolon, ";", .nil, 1⟩, ⟨.endOfInput, "", .nil, 1⟩]

/-- The `else` belongs to the second `if`. -/
theorem program_nestedIf :
    (parse 14 nestedIf).faults = #[] ∧
      Program (nestedIf.takeWhile (·.kind != .endOfInput))
        [.branch (.name ⟨.identifier, "a", .nil, 1⟩)
          (.branch (.unary ⟨.minus, "-", .nil, 1⟩ (.name ⟨.identifier, "a", .nil, 1⟩))
            (.print (.name ⟨.identifier, "a", .nil, 1⟩))
            (some (.expression (.assign ⟨.identifier, "a", .nil, 1⟩
              (.name ⟨.identifier, "a", .nil, 1⟩))))) none] := by
  have hfaults : (parse 14 nestedIf).faults = #[] := by cbv
  refine ⟨hfaults, (program_iff_parse 14 nestedIf ?_ _).2 ⟨Parsed.errors_eq_empty.2 hfaults, ?_⟩⟩
  · rw [hfaults]
    exact fun x hx => absurd hx (Array.not_mem_empty x)
  · cbv

end Treewalk
