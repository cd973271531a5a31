import Treewalk.Proofs.Grammar.Acceptance
import Treewalk.Proofs.Grammar.Noting
import Treewalk.Proofs.Grammar.Returns

/-!
# Recovery isolates a broken statement

A program may be put in front of other tokens, and a statement that cannot
be read in between: the program is read as on its own, the broken statement
is given up at its semicolon, and what comes behind is read as on its own
too. That the parts do not see each other is what locality says; that
**recovery stops right behind the broken statement** is what its one
semicolon does.
-/

namespace Treewalk

/-- Tokens that end in their only semicolon. -/
def EndsOnce (ts : List Token) : Prop :=
  ∃ front semicolon, ts = front ++ [semicolon] ∧ semicolon.kind = .semicolon ∧
    ∀ t ∈ front, t.kind ≠ .semicolon

theorem EndsOnce.ne_nil {ts : List Token} (h : EndsOnce ts) : ts ≠ [] := by
  obtain ⟨front, semicolon, rfl, -⟩ := h
  exact List.append_ne_nil_of_right_ne_nil front (List.cons_ne_nil semicolon [])

theorem EndsOnce.cons_cons {t u : Token} {ts : List Token} (h : EndsOnce (t :: u :: ts)) :
    t.kind ≠ .semicolon ∧ EndsOnce (u :: ts) := by
  obtain ⟨front, semicolon, hts, hkind, hfront⟩ := h
  cases front with
  | nil => simp at hts
  | cons v front =>
    rw [List.cons_append] at hts
    obtain ⟨rfl, hrest⟩ := List.cons.inj hts
    obtain ⟨hv, hfront⟩ := List.forall_mem_cons.1 hfront
    exact ⟨hv, front, semicolon, hrest, hkind, hfront⟩

theorem EndsOnce.of_suffix {ts us : List Token} (h : EndsOnce ts) (hsuffix : us <:+ ts)
    (hne : us ≠ []) : EndsOnce us := by
  obtain ⟨read, rfl⟩ := hsuffix
  induction read with
  | nil => exact h
  | cons t read ih =>
    cases hrest : read ++ us with
    | nil => exact absurd (List.append_eq_nil_iff.1 hrest).2 hne
    | cons u rest =>
      rw [List.cons_append, hrest] at h
      refine ih ?_
      rw [hrest]
      exact h.cons_cons.2

/-- From inside such tokens, recovery goes to what comes behind them. -/
theorem EndsOnce.settle {last : Token} {us : List Token} (h : EndsOnce (last :: us))
    (hboundary : ∀ t ∈ us, t.kind ∉ Cursor.boundaries) (hmark : Reading.Unmarked us)
    (rest : List Token) :
    Cursor.settle last (us ++ rest) = rest := by
  induction us generalizing last with
  | nil =>
    obtain ⟨front, semicolon, hts, hkind, -⟩ := h
    have hlast : last.kind = .semicolon := by
      cases front with
      | nil => rw [(List.cons.inj hts).1, hkind]
      | cons v front => simp at hts
    cases rest with
    | nil => rfl
    | cons t rest => simp [Cursor.settle, hlast]
  | cons u us ih =>
    obtain ⟨hlast, hrest⟩ := h.cons_cons
    obtain ⟨hu, hus⟩ := List.forall_mem_cons.1 hboundary
    obtain ⟨hkind, hmark⟩ := List.forall_mem_cons.1 hmark
    have hgo : ¬ (u.kind = .endOfInput || last.kind = .semicolon ||
        Cursor.boundaries.contains u.kind) = true := by
      simp [hlast, hu, hkind]
    rw [List.cons_append, Cursor.settle, if_neg hgo]
    exact ih hrest hus hmark

namespace Reading

variable {depth : ℕ} {ts : List Token}

/-! ## A broken statement -/

/-- A statement that cannot be read: with some tokens behind it, the
declaration that starts with its tokens is abandoned in front of one of them.
It ends in its only semicolon, and nothing past its first token starts a
statement. -/
structure Broken (depth : ℕ) (ts : List Token) : Prop where
  endsOnce : EndsOnce ts
  boundary : ∀ t ∈ ts.tail, t.kind ∉ Cursor.boundaries
  unmarked : ∀ t ∈ ts, t.kind ≠ .endOfInput
  abandoned : ∃ rest room c, ts.length + rest.length ≤ room ∧
    attempt room depth ⟨ts ++ rest, #[], 0⟩ = .error .fault c ∧ rest.length < c.ahead.length

theorem placed_start (ts rest : List Token) (before : Array Fault) :
    Cursor.placed rest before { ahead := ts } = ⟨ts ++ rest, before, 0⟩ := by
  simp [Cursor.placed]

/-- A broken statement is abandoned in the same way on its own. -/
theorem Broken.alone (h : Broken depth ts) :
    ∃ c, attempt ts.length depth { ahead := ts } = .error .fault c ∧ c.ahead ≠ [] := by
  obtain ⟨rest, room, c, hroom, hrun, hstops⟩ := h.abandoned
  have hlocal : Local (ts.length + 1) rest #[] (attempt ts.length depth) (attempt room depth) :=
    local_attempt (Nat.le_refl _) (by omega) depth
  have hshort : ¬ Short rest { ahead := ts } := fun hshort => h.endsOnce.ne_nil hshort.1
  rcases hlocal.run { ahead := ts } (Nat.lt_succ_self _) hshort with hsame | hover
  · rw [placed_start, hrun] at hsame
    cases hown : attempt ts.length depth { ahead := ts } with
    | ok s c' =>
      rw [hown] at hsame
      cases hsame
    | error e c' =>
      rw [hown] at hsame
      obtain ⟨rfl, rfl⟩ := EStateM.Result.error.inj hsame
      refine ⟨c', rfl, fun hnil => ?_⟩
      rw [Cursor.ahead_placed, hnil, List.nil_append] at hstops
      exact absurd hstops (Nat.lt_irrefl _)
  · have hle : c.ahead.length ≤ rest.length := by
      have hle := hover.2
      rwa [placed_start, hrun] at hle
    omega

/-- Recovery from a broken statement ends behind it. -/
theorem Broken.skipToBoundary (h : Broken depth ts) {c : Cursor} (hsuffix : c.ahead <:+ ts)
    (hne : c.ahead ≠ []) (rest : List Token) :
    (c.placed rest #[]).skipToBoundary = ⟨rest, c.faults.map (Fault.pushed rest),
      c.openFunctions⟩ := by
  obtain ⟨ahead, faults, opens⟩ := c
  cases ahead with
  | nil => exact absurd rfl hne
  | cons last us =>
    have hends : EndsOnce (last :: us) := h.endsOnce.of_suffix hsuffix hne
    have hboundary : ∀ t ∈ us, t.kind ∉ Cursor.boundaries := by
      intro t ht
      obtain ⟨read, rfl⟩ := hsuffix
      refine h.boundary t ?_
      cases read with
      | nil => exact ht
      | cons u read => exact List.mem_append_right read (List.mem_cons_of_mem last ht)
    obtain ⟨hlast, hmark⟩ : last.kind ≠ .endOfInput ∧ Unmarked us :=
      List.forall_mem_cons.1 fun t ht => h.unmarked t (hsuffix.mem ht)
    have hplaced : Cursor.placed rest #[] ⟨last :: us, faults, opens⟩ =
        ⟨last :: (us ++ rest), faults.map (Fault.pushed rest), opens⟩ := by
      rw [Cursor.placed, Array.empty_append, List.cons_append]
    rw [hplaced, skipToBoundary_cons hlast, hends.settle hboundary hmark rest]

theorem openFunctions_attempt (room depth : ℕ) (c : Cursor) :
    (final (attempt room depth c)).openFunctions = c.openFunctions :=
  ((keeps_statements steady_onward room depth).1 c).2

/-- What is noted before a token is noted at a token. -/
theorem token_of_abandoned {room : ℕ} {c : Cursor}
    (hrun : attempt room depth { ahead := ts } = .error .fault c) (hne : c.ahead ≠ []) :
    ∀ f ∈ c.faults.toList, ∃ t ∈ ts, f.token = some t := by
  have hnotes := notes_attempt room depth { ahead := ts }
  rw [hrun] at hnotes
  obtain ⟨added, hadded⟩ := hnotes
  have hfaults : c.faults.toList = added := hadded.faults
  intro f hf
  rw [hfaults] at hf
  obtain ⟨hleft, htoken⟩ := hadded.standing f hf
  have hpassed : c.ahead.length ≤ f.left := hadded.passed f hf
  have hpos : 0 < c.ahead.length := List.length_pos_iff.2 hne
  have hposition : f.position ts.length < ts.length := by
    have hle : f.left ≤ ts.length := hleft
    rw [Fault.position]
    omega
  exact ⟨ts[f.position ts.length], List.getElem_mem hposition,
    htoken.trans (List.getElem?_eq_getElem hposition)⟩

/-- Tokens from which nothing is read, and the faults noted in them: with
anything behind, reading goes on there. -/
structure Skipped (depth : ℕ) (ts : List Token) (faults : Array Fault) : Prop where
  tokens : ∀ f ∈ faults.toList, ∃ t ∈ ts, f.token = some t
  finishes {rest : List Token} {room : ℕ} {more : List Stmt} {c : Cursor} :
    ts.length + rest.length ≤ room →
    Finishes Cursor.atEnd (declaration room depth)
      ⟨rest, faults.map (Fault.pushed rest), 0⟩ more c →
    Finishes Cursor.atEnd (declaration room depth) ⟨ts ++ rest, #[], 0⟩ more c

theorem skipped_nil (depth : ℕ) : Skipped depth [] #[] where
  tokens := List.forall_mem_nil _
  finishes _ h := by
    rw [Array.map_empty] at h
    exact h

/-- **A broken statement is passed over**, whatever comes behind it. -/
theorem Broken.skipped (h : Broken depth ts) : ∃ faults, Skipped depth ts faults := by
  obtain ⟨c, hrun, hne⟩ := h.alone
  have hsuffix : c.ahead <:+ ts := by
    have hfurther := further_attempt ts.length depth { ahead := ts }
    rwa [hrun] at hfurther
  have hopens : c.openFunctions = 0 := by
    have hopens := openFunctions_attempt ts.length depth { ahead := ts }
    rwa [hrun] at hopens
  refine ⟨c.faults, token_of_abandoned hrun hne, fun {rest room more c'} hroom hmore => ?_⟩
  have hlocal : Local (ts.length + 1) rest #[] (attempt ts.length depth) (attempt room depth) :=
    local_attempt (Nat.le_refl _) (by omega) depth
  have hshort : ¬ Short rest { ahead := ts } := fun hshort => h.endsOnce.ne_nil hshort.1
  have hthere : attempt room depth ⟨ts ++ rest, #[], 0⟩ = .error .fault (c.placed rest #[]) := by
    rcases hlocal.run { ahead := ts } (Nat.lt_succ_self _) hshort with hsame | hover
    · rwa [placed_start, hrun] at hsame
    · rw [hrun] at hover
      exact absurd hover.1.1 hne
  have hitem : declaration room depth ⟨ts ++ rest, #[], 0⟩ =
      (none, ⟨rest, c.faults.map (Fault.pushed rest), 0⟩) := by
    rw [declaration_eq, recovering, hthere]
    exact congrArg (Prod.mk none) ((h.skipToBoundary hsuffix hne rest).trans (by rw [hopens]))
  have hgo : Cursor.atEnd ⟨ts ++ rest, #[], 0⟩ = false := by
    cases hts : ts with
    | nil => exact absurd hts h.endsOnce.ne_nil
    | cons t us =>
      have hkind : t.kind ≠ .endOfInput := h.unmarked t (hts ▸ List.mem_cons_self)
      simp [hkind]
  exact Finishes.step hgo hitem hmore

/-! ## A program in front -/

/-- A row of declarations is read in front of other tokens as it is on its
own. -/
theorem finishes_inRow {rest : List Token} {room : ℕ} {program more : List Stmt} {c : Cursor}
    (h : InRow (RecognizedDecl depth) 0 ts program) (hroom : ts.length ≤ room)
    (helse : Stops [.kwElse] rest)
    (hmore : Finishes Cursor.atEnd (declaration room depth) ⟨rest, #[], 0⟩ more c) :
    Finishes Cursor.atEnd (declaration room depth) ⟨ts ++ rest, #[], 0⟩ (program ++ more) c := by
  obtain ⟨parts, rfl, rfl, hparts⟩ := h
  induction parts with
  | nil => exact hmore
  | cons part parts ih =>
    obtain ⟨hpart, hothers⟩ := List.forall_mem_cons.1 hparts
    rw [List.flatMap_cons, List.length_append] at hroom
    have hnext : Stops [.kwElse] (parts.flatMap (·.1) ++ rest) := by
      cases parts with
      | nil => exact helse
      | cons next parts =>
        have hstarts := (hothers next List.mem_cons_self).derives.starts
        rw [List.flatMap_cons, List.append_assoc]
        exact hstarts.stops (by decide) _
    have hitem : declaration room depth ⟨part.1 ++ (parts.flatMap (·.1) ++ rest), #[], 0⟩ =
        (some part.2, ⟨parts.flatMap (·.1) ++ rest, #[], 0⟩) :=
      declaration_of_reads hpart.reads (by omega) hnext #[] nofun
    have hgo : Cursor.atEnd ⟨part.1 ++ (parts.flatMap (·.1) ++ rest), #[], 0⟩ = false :=
      hpart.derives.starts.atEnd (by decide) _ #[] 0
    have hrow := ih (by omega) hothers
    rw [List.flatMap_cons, List.append_assoc]
    exact Finishes.step hgo hitem hrow

/-- **A program, a broken statement and what comes behind are read one by
one.** -/
theorem readAll_isolated {broken rest : List Token} {faults : Array Fault} (hts : Unmarked ts)
    (hprogram : (readAll depth ts).2.faults = #[]) (hbroken : Skipped depth broken faults)
    (helse : Stops [.kwElse] (broken ++ rest)) :
    readAll depth (ts ++ (broken ++ rest)) =
      ((readAll depth ts).1 ++ (readAll depth rest).1,
        (readAll depth rest).2.placed [] (faults.map (Fault.pushed rest))) := by
  have hlength : (ts ++ (broken ++ rest)).length = ts.length + (broken.length + rest.length) := by
    rw [List.length_append, List.length_append]
  refine readAll_of_finishes (finishes_inRow (inRow_of_readAll hts hprogram) (by omega) helse ?_)
  refine hbroken.finishes (by omega) ?_
  exact finishes_readAll depth rest _ (by omega)

/-- On their own, skipped tokens yield no statement and the faults noted in
them. -/
theorem Skipped.readAll {faults : Array Fault} (h : Skipped depth ts faults) :
    readAll depth ts = ([], ⟨[], faults, 0⟩) := by
  have hend : Finishes Cursor.atEnd (declaration ts.length depth)
      ⟨[], faults.map (Fault.pushed []), 0⟩ [] ⟨[], faults, 0⟩ := by
    rw [Fault.pushed_nil, Array.map_id]
    exact .stop rfl
  have hroom : ts.length + ([] : List Token).length ≤ ts.length := Nat.le_refl _
  have hwhole := h.finishes hroom hend
  rw [List.append_nil] at hwhole
  exact readAll_of_finishes hwhole

/-- A fault at a token is reported at that token, whatever comes behind. -/
theorem Skipped.errors {faults : Array Fault} (h : Skipped depth ts faults) (rest : List Token) :
    (faults.map (Fault.pushed rest)).map Fault.error = faults.map Fault.error := by
  rw [Array.map_map]
  refine Array.map_congr_left fun f hf => ?_
  obtain ⟨t, -, htoken⟩ := h.tokens f (Array.mem_toList_iff.2 hf)
  simp only [Function.comp_apply, Fault.error, Fault.pushed, htoken, Option.some_or]

theorem Stops.programTokens {kinds : List Kind} {front tokens : List Token}
    (h : Stops kinds (front ++ tokens)) : Stops kinds (front ++ programTokens tokens) := by
  cases front with
  | cons t front => exact h
  | nil =>
    cases tokens with
    | nil => exact stops_nil kinds
    | cons t tokens =>
      by_cases hmark : t.kind = .endOfInput
      · rw [programTokens_mark hmark]
        exact stops_nil kinds
      · have hfirst : ∀ u ∈ [t], u.kind ≠ .endOfInput := List.forall_mem_singleton.2 hmark
        rw [← List.singleton_append, programTokens_append hfirst]
        exact h

end Reading

open Reading

/-- **Recovery isolates a broken statement.** Let a program be read without
error, and let a broken statement, or nothing, come behind it and any tokens
behind that, not starting with an `else`. Then the whole is read as the
statements of the program and those of what comes behind; and its errors are
those of the broken statement on its own, all at tokens of that statement,
and those of what comes behind. -/
theorem parse_isolates_broken {depth : ℕ} {program broken behind : List Token} {mark : Token}
    (hmark : mark.kind = .endOfInput) (hprogram : ∀ t ∈ program, t.kind ≠ .endOfInput)
    (herrors : (parse depth (program ++ [mark])).errors = #[])
    (hbroken : broken = [] ∨ Broken depth broken)
    (helse : Stops [.kwElse] (broken ++ behind)) :
    (parse depth (program ++ broken ++ behind)).statements =
        (parse depth (program ++ [mark])).statements ++ (parse depth behind).statements ∧
      (parse depth (program ++ broken ++ behind)).errors =
        (parse depth (broken ++ [mark])).errors ++ (parse depth behind).errors ∧
      (parse depth (broken ++ [mark])).statements = [] ∧
      ∀ e ∈ (parse depth (broken ++ [mark])).errors, ∃ t ∈ broken, ∃ cause : GrammarFault,
        e = .atToken t cause.message := by
  have hunmarked : ∀ t ∈ broken, t.kind ≠ .endOfInput := by
    rcases hbroken with rfl | hbroken
    · exact List.forall_mem_nil _
    · exact hbroken.unmarked
  obtain ⟨faults, hskipped⟩ : ∃ faults, Skipped depth broken faults := by
    rcases hbroken with rfl | hbroken
    · exact ⟨#[], skipped_nil depth⟩
    · exact hbroken.skipped
  have halone {ts : List Token} (hts : Unmarked ts) : parse depth (ts ++ [mark]) =
      ⟨(readAll depth ts).1, (readAll depth ts).2.faults.map (Fault.pushed [mark])⟩ :=
    parse_append_mark depth hts hmark []
  have hwhole : parse depth (program ++ broken ++ behind) =
      ⟨(readAll depth program).1 ++ (parse depth behind).statements,
        faults.map (Fault.pushed behind) ++ (parse depth behind).faults⟩ := by
    have hfaults : (readAll depth program).2.faults = #[] := by
      rw [Parsed.errors_eq_empty, halone hprogram, Array.map_eq_empty_iff] at herrors
      exact herrors
    have hpushed : (faults.map (Fault.pushed (programTokens behind))).map
        (Fault.pushed (programTail behind)) = faults.map (Fault.pushed behind) := by
      rw [Array.map_map]
      refine Array.map_congr_left fun f _ => ?_
      rw [Function.comp_apply, Fault.pushed_pushed, programTokens_append_tail]
    rw [List.append_assoc, parse_eq_program, programTokens_append hprogram,
      programTokens_append hunmarked, programTail_append hprogram, programTail_append hunmarked,
      readAll_isolated hprogram hfaults hskipped helse.programTokens, Cursor.placed,
      Fault.pushed_nil, Array.map_id, Array.map_append, hpushed, parse_eq_program]
  refine ⟨?_, ?_, ?_, ?_⟩
  · rw [hwhole, halone hprogram]
  · rw [hwhole, halone hunmarked, hskipped.readAll, Parsed.errors, Parsed.errors,
      Array.map_append, hskipped.errors, hskipped.errors]
    rfl
  · rw [halone hunmarked, hskipped.readAll]
  · intro e he
    rw [halone hunmarked, hskipped.readAll, Parsed.errors, hskipped.errors] at he
    obtain ⟨f, hf, rfl⟩ := Array.mem_map.1 he
    obtain ⟨t, ht, htoken⟩ := hskipped.tokens f (Array.mem_toList_iff.2 hf)
    refine ⟨t, ht, f.cause, ?_⟩
    rw [Fault.error, htoken, Option.getD_some]

/-- The tokens of `print a;`. -/
def printing : List Token :=
  [⟨.kwPrint, "print", .nil, 1⟩, ⟨.identifier, "a", .nil, 1⟩, ⟨.semicolon, ";", .nil, 1⟩]

/-- The tokens of `a a;`, which is no statement. -/
def twoNames : List Token :=
  [⟨.identifier, "a", .nil, 2⟩, ⟨.identifier, "a", .nil, 2⟩, ⟨.semicolon, ";", .nil, 2⟩]

/-- The tokens of `else print a;`, of which only the `else` is refused. -/
def strayElse : List Token :=
  [⟨.kwElse, "else", .nil, 3⟩, ⟨.kwPrint, "print", .nil, 3⟩, ⟨.identifier, "a", .nil, 3⟩,
    ⟨.semicolon, ";", .nil, 3⟩, ⟨.endOfInput, "", .nil, 3⟩]

theorem broken_twoNames : Broken 64 twoNames where
  endsOnce := ⟨twoNames.take 2, ⟨.semicolon, ";", .nil, 2⟩, rfl, rfl, by decide⟩
  boundary := by decide
  unmarked := by decide
  abandoned := ⟨[], 3, ⟨twoNames.tail, #[⟨2, twoNames.head?, .noEndOfExpression⟩], 0⟩, by decide,
    rfl, by decide⟩

/-- Both statements around the broken one are read, and each fault is
reported once. -/
theorem twoNames_isolated :
    let mark : Token := ⟨.endOfInput, "", .nil, 1⟩
    (parse 64 (printing ++ [mark])).errors = #[] ∧
      (parse 64 (printing ++ twoNames ++ strayElse)).statements.length = 2 ∧
      (parse 64 (printing ++ twoNames ++ strayElse)).errors =
        (parse 64 (twoNames ++ [mark])).errors ++ (parse 64 strayElse).errors := by
  intro mark
  have herrors : (parse 64 (printing ++ [mark])).errors = #[] := by decide +kernel
  have helse : Stops [.kwElse] (twoNames ++ strayElse) := stops_cons.2 (by decide)
  obtain ⟨hstatements, hisolated, -, -⟩ :=
    parse_isolates_broken rfl (by decide) herrors (.inr broken_twoNames) helse
  refine ⟨herrors, ?_, hisolated⟩
  rw [hstatements]
  decide +kernel

end Treewalk
