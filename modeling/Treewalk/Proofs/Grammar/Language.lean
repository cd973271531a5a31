import Treewalk.Proofs.Grammar.Keeping
import Treewalk.Proofs.Grammar.Rules

/-!
# The language of a reading

`Yields room m P` says what a reading `m` can have read when it notes no
fault: a list of tokens `ts` that `P` relates to the result, where `P` may
also look at the number of open function bodies and at the tokens that are
left. With it goes that faults are only ever added, and that a reading
abandoned for a fault has noted one. The rules here follow how a reading is
put together, so that the language of a sequence is the concatenation of the
languages of its steps.
-/

namespace Treewalk

open Grammar

namespace Reading

variable {α β : Type}

/-- The language of a reading that notes no fault, as a relation between the
number of open function bodies, the tokens read, the tokens left and the
result. -/
structure Yields (room : Nat) (m : Reading α)
    (P : Nat → List Token → List Token → α → Prop) : Prop where
  keeps : Keeps Extends m
  /-- A reading abandoned for a fault has noted one. -/
  refused {c c' : Cursor} : m c = .error .fault c' → c'.faults ≠ c.faults
  read {c c' : Cursor} {a : α} : m c = .ok a c' → c.ahead.length ≤ room →
    c'.faults = c.faults → ∃ ts, c.ahead = ts ++ c'.ahead ∧
      c'.openFunctions = c.openFunctions ∧ P c.openFunctions ts c'.ahead a

variable {room : Nat} {m : Reading α} {P Q : Nat → List Token → List Token → α → Prop}

theorem Yields.mono (h : Yields room m P)
    (hsub : ∀ opens ts rest a, P opens ts rest a → Q opens ts rest a) : Yields room m Q where
  keeps := h.keeps
  refused := h.refused
  read hrun hroom hfaults := by
    obtain ⟨ts, hahead, hopens, hP⟩ := h.read hrun hroom hfaults
    exact ⟨ts, hahead, hopens, hsub _ _ _ _ hP⟩

theorem Yields.of_le (h : Yields room m P) {room' : Nat} (hle : room' ≤ room) :
    Yields room' m P where
  keeps := h.keeps
  refused := h.refused
  read hrun hroom := h.read hrun (Nat.le_trans hroom hle)

/-! ## Sequences -/

theorem yields_pure (a : α) : Yields room (pure a : Reading α) fun _ ts _ b => ts = [] ∧ b = a where
  keeps := keeps_pure steady_extends a
  refused := nofun
  read hrun _ _ := by
    obtain ⟨rfl, rfl⟩ := EStateM.Result.ok.inj hrun
    exact ⟨[], rfl, rfl, rfl, rfl⟩

/-- A reading that yields nothing without a fault. -/
theorem yields_tooDeep : Yields room (throw .tooDeep : Reading α) fun _ _ _ _ => False where
  keeps := keeps_throw steady_extends _
  refused := nofun
  read := nofun

theorem Extends.faults_ne {a b c : Cursor} (hab : Extends a b) (hbc : Extends b c)
    (h : c.faults ≠ b.faults) : c.faults ≠ a.faults :=
  fun heq => h (hab.faults_eq hbc heq).2

/-- **The language of a sequence** is a concatenation. -/
theorem Yields.bind {f : α → Reading β} {R : α → Nat → List Token → List Token → β → Prop}
    (hm : Yields room m P) (hf : ∀ a, Yields room (f a) (R a)) :
    Yields room (m >>= f) fun opens ts rest b => ∃ us vs a,
      ts = us ++ vs ∧ P opens us (vs ++ rest) a ∧ R a opens vs rest b where
  keeps := hm.keeps.bind steady_extends fun a => (hf a).keeps
  refused := by
    intro c c' h
    have hkeep := hm.keeps c
    cases hrun : m c with
    | error e c₁ =>
      rw [bind_error hrun] at h
      obtain ⟨rfl, rfl⟩ := EStateM.Result.error.inj h
      exact hm.refused hrun
    | ok a c₁ =>
      rw [bind_ok hrun] at h
      rw [hrun] at hkeep
      have hkeep' := (hf a).keeps c₁
      rw [h] at hkeep'
      exact hkeep.faults_ne hkeep' ((hf a).refused h)
  read := by
    intro c c' b h hroom hfaults
    obtain ⟨a, c₁, hrun, hrest⟩ := bind_eq_ok.1 h
    have hkeep := hm.keeps c
    have hkeep' := (hf a).keeps c₁
    rw [hrun] at hkeep
    rw [hrest] at hkeep'
    -- no fault in the end, so none in either step
    obtain ⟨hfaults₁, hfaults₂⟩ := hkeep.faults_eq hkeep' hfaults
    obtain ⟨us, hus, hopens, hP⟩ := hm.read hrun hroom hfaults₁
    have hroom' : c₁.ahead.length ≤ room := by
      rw [hus, List.length_append] at hroom
      omega
    obtain ⟨vs, hvs, hopens', hR⟩ := (hf a).read hrest hroom' hfaults₂
    rw [hvs] at hus hP
    rw [hopens] at hR
    exact ⟨us ++ vs, by rw [hus, List.append_assoc], hopens'.trans hopens, us, vs, a, rfl, hP, hR⟩

theorem Yields.map (hm : Yields room m P) (f : α → β) :
    Yields room (f <$> m) fun opens ts rest b => ∃ a, b = f a ∧ P opens ts rest a := by
  rw [map_eq_bind]
  refine (hm.bind fun a => yields_pure (f a)).mono ?_
  rintro opens ts rest b ⟨us, vs, a, rfl, hP, rfl, rfl⟩
  exact ⟨a, rfl, by simpa using hP⟩

/-! ## Single tokens -/

/-- What goes on by whether a token of some kinds comes next. -/
theorem Yields.accept {kinds : List Kind} {f : Option Token → Reading α}
    {Q : Token → Nat → List Token → List Token → α → Prop} (hnone : Yields room (f none) P)
    (hsome : ∀ t, t.kind ∈ kinds → Yields (room - 1) (f (some t)) (Q t)) :
    Yields room (accept kinds >>= f) fun opens ts rest a =>
      (kinds.contains .endOfInput = false → Stops kinds (ts ++ rest)) ∧ P opens ts rest a ∨
      ∃ t us, t.kind ∈ kinds ∧ ts = t :: us ∧ Q t opens us rest a where
  keeps := by
    intro c
    rcases accept_cases kinds c with ⟨t, rest, hkind, -, -, hrun⟩ | ⟨-, hrun⟩
    · rw [bind_ok hrun]
      exact (hsome t hkind).keeps { c with ahead := rest }
    · rw [bind_ok hrun]
      exact hnone.keeps c
  refused := by
    intro c c' h
    rcases accept_cases kinds c with ⟨t, rest, hkind, -, -, hrun⟩ | ⟨-, hrun⟩
    · rw [bind_ok hrun] at h
      have hne := (hsome t hkind).refused h
      exact hne
    · rw [bind_ok hrun] at h
      exact hnone.refused h
  read := by
    intro c c' a h hroom hfaults
    rcases accept_cases kinds c with ⟨t, rest, hkind, -, hahead, hrun⟩ | ⟨hstop, hrun⟩
    · rw [bind_ok hrun] at h
      -- a token was taken, so less room is needed for the rest
      have hroom' : rest.length ≤ room - 1 := by
        rw [hahead, List.length_cons] at hroom
        omega
      obtain ⟨us, hus, hopens, hQ⟩ := (hsome t hkind).read h hroom' hfaults
      have hus : rest = us ++ c'.ahead := hus
      exact ⟨t :: us, by rw [hahead, hus, List.cons_append], hopens,
        .inr ⟨t, us, hkind, rfl, hQ⟩⟩
    · rw [bind_ok hrun] at h
      obtain ⟨ts, hts, hopens, hP⟩ := hnone.read h hroom hfaults
      exact ⟨ts, hts, hopens, .inl ⟨hts ▸ hstop, hP⟩⟩

theorem Yields.take {kind : Kind} {f : Bool → Reading α} (hleft : Yields room (f false) P)
    (htaken : Yields (room - 1) (f true) Q) :
    Yields room (take kind >>= f) fun opens ts rest a =>
      ([kind].contains .endOfInput = false → Stops [kind] (ts ++ rest)) ∧ P opens ts rest a ∨
      ∃ t us, t.kind = kind ∧ ts = t :: us ∧ Q opens us rest a := by
  rw [Reading.take, bind_assoc]
  refine (Yields.accept hleft fun _ _ => htaken).mono ?_
  rintro opens ts rest a (h | ⟨t, us, hkind, rfl, hQ⟩)
  · exact .inl h
  · exact .inr ⟨t, us, by simpa using hkind, rfl, hQ⟩

theorem Cursor.faults_noteAt_ne (c : Cursor) (t : Token) (rest : List Token)
    (cause : GrammarFault) : (c.noteAt t rest cause).faults ≠ c.faults := by
  intro h
  have := congrArg Array.size h
  simp [Cursor.noteAt] at this

theorem Cursor.faults_note_ne (c : Cursor) (cause : GrammarFault) :
    (c.note cause).faults ≠ c.faults := by
  unfold Cursor.note
  split
  · exact faults_noteAt_ne c _ _ cause
  · intro h
    have := congrArg Array.size h
    simp at this

theorem yields_refuse (cause : GrammarFault) :
    Yields room (refuse cause : Reading α) fun _ _ _ _ => False where
  keeps := keeps_refuse steady_extends cause
  refused h := by
    obtain ⟨-, rfl⟩ := EStateM.Result.error.inj h
    exact Cursor.faults_note_ne _ cause
  read := nofun

theorem expect_bind (kind : Kind) (cause : GrammarFault) (f : Token → Reading α) :
    expect kind cause >>= f = accept [kind] >>= fun t? =>
      match t? with
      | some t => f t
      | none => refuse cause := by
  rw [expect, bind_assoc]
  refine bind_congr fun t? => ?_
  cases t? <;> rfl

/-- A token that has to come. -/
theorem Yields.expect {kind : Kind} {cause : GrammarFault} {f : Token → Reading α}
    {Q : Token → Nat → List Token → List Token → α → Prop}
    (hf : ∀ t, t.kind = kind → Yields room (f t) (Q t)) :
    Yields room (expect kind cause >>= f) fun opens ts rest a =>
      ∃ t us, t.kind = kind ∧ ts = t :: us ∧ Q t opens us rest a := by
  rw [expect_bind]
  refine (Yields.accept (yields_refuse cause) fun t ht =>
    (hf t (by simpa using ht)).of_le (Nat.sub_le _ _)).mono ?_
  rintro opens ts rest a (⟨-, h⟩ | ⟨t, us, hkind, hts, hQ⟩)
  · exact h.elim
  · exact ⟨t, us, by simpa using hkind, hts, hQ⟩

/-! ## Clauses and lists -/

theorem Yields.withinFunction (hm : Yields room m P) :
    Yields room (withinFunction m) fun opens ts rest a => P (opens + 1) ts rest a where
  keeps := hm.keeps.withinFunction steady_extends
  refused := by
    intro c c' h
    unfold Reading.withinFunction at h
    split at h
    · cases h
    · rename_i hrun
      obtain ⟨rfl, rfl⟩ := EStateM.Result.error.inj h
      have hne := hm.refused hrun
      exact hne
  read := by
    intro c c' a h hroom hfaults
    unfold Reading.withinFunction at h
    split at h
    · rename_i hrun
      obtain ⟨rfl, rfl⟩ := EStateM.Result.ok.inj h
      obtain ⟨ts, hts, hopens, hP⟩ := hm.read hrun hroom hfaults
      have hopens : _ = c.openFunctions + 1 := hopens
      exact ⟨ts, hts, by simp [hopens], hP⟩
    · cases h

theorem Yields.ifTaken {clause : Reading α} {kind : Kind} (h : Yields (room - 1) clause P) :
    Yields room (ifTaken kind clause) fun opens ts rest a? =>
      ([kind].contains .endOfInput = false → Stops [kind] (ts ++ rest)) ∧ ts = [] ∧ a? = none ∨
      ∃ t us a, t.kind = kind ∧ ts = t :: us ∧ a? = some a ∧ P opens us rest a := by
  refine (Yields.take (yields_pure none) (h.map some)).mono ?_
  rintro opens ts rest a? (h | ⟨t, us, hkind, rfl, a, rfl, hP⟩)
  · exact .inl h
  · exact .inr ⟨t, us, a, hkind, rfl, rfl, hP⟩

theorem yields_sees (kind : Kind) : Yields room (sees kind) fun _ ts _ _ => ts = [] where
  keeps := keeps_sees steady_extends kind
  refused := nofun
  read hrun _ _ := by
    obtain ⟨rfl, rfl⟩ := EStateM.Result.ok.inj hrun
    exact ⟨[], rfl, rfl, rfl⟩

/-- A clause is read, unless a token comes that may stand in its place. -/
theorem Yields.unlessSeen {clause : Reading α} {kind : Kind} (h : Yields room clause P) :
    Yields room (unlessSeen kind clause) fun opens ts rest a? =>
      ts = [] ∧ a? = none ∨ ∃ a, a? = some a ∧ P opens ts rest a := by
  have hclause (seen : Bool) : Yields room (if seen then pure none else some <$> clause)
      fun opens ts rest a? => ts = [] ∧ a? = none ∨ ∃ a, a? = some a ∧ P opens ts rest a := by
    cases seen
    · exact (h.map some).mono fun _ _ _ _ => .inr
    · exact (yields_pure none).mono fun _ _ _ _ => .inl
  refine ((yields_sees kind).bind hclause).mono ?_
  rintro opens ts rest a? ⟨us, vs, _, rfl, rfl, h⟩
  exact h

theorem yields_noteOver (tooMany : GrammarFault) (count : Nat) :
    Yields room (noteOver tooMany count) fun _ ts _ _ => ts = [] ∧ count < 255 where
  keeps := keeps_noteOver steady_extends tooMany count
  refused := by
    intro c c' h
    unfold noteOver at h
    split at h <;> cases h
  read := by
    intro c c' _ h _ hfaults
    unfold noteOver at h
    split at h
    · obtain ⟨-, rfl⟩ := EStateM.Result.ok.inj h
      exact absurd hfaults (Cursor.faults_note_ne c tooMany)
    · rename_i hcount
      obtain ⟨-, rfl⟩ := EStateM.Result.ok.inj h
      exact ⟨[], rfl, rfl, rfl, Nat.lt_of_not_le hcount⟩

/-- The parts of a list with commas between them. -/
def Listed (I : List Token → α → Prop) (count : Nat) (ts : List Token) (as : List α) : Prop :=
  ∃ parts : List (List Token × α), Commas (parts.map (·.1)) ts ∧ as = parts.map (·.2) ∧
    count + parts.length ≤ 255 ∧ ∀ p ∈ parts, I p.1 p.2

/-- **The items of a list** are those between its commas. A list that ran
out of room has run out of tokens too. -/
theorem Yields.separated {item : Reading α} {I : List Token → α → Prop}
    (hitem : Yields room item fun _ ts _ a => I ts a) (tooMany : GrammarFault) (room' : Nat)
    (hle : room' ≤ room) (count : Nat) :
    Yields room' (separated item tooMany room' count) fun _ ts rest as =>
      rest ≠ [] → as ≠ [] ∧ Listed I count ts as := by
  induction room' generalizing count with
  | zero =>
    -- no room is left, and so no token: nothing closes the list
    refine ⟨keeps_pure steady_extends _, nofun, fun {c c' as} h hroom _ => ?_⟩
    obtain ⟨rfl, rfl⟩ := EStateM.Result.ok.inj h
    refine ⟨[], rfl, rfl, fun hne => absurd ?_ hne⟩
    exact List.eq_nil_of_length_eq_zero (Nat.le_zero.1 hroom)
  | succ room' ih =>
    have hrest : Yields (room' + 1 - 1) (Reading.separated item tooMany room' (count + 1)) _ :=
      ih (Nat.le_of_succ_le hle) (count + 1)
    rw [separated_succ]
    refine ((yields_noteOver tooMany count).bind fun _ => (hitem.of_le hle).bind fun first =>
      hrest.ifTaken.bind fun tail? => yields_pure (first :: tail?.getD [])).mono ?_
    rintro opens ts rest as ⟨_, _, _, rfl, ⟨rfl, hcount⟩, us, _, first, rfl, hfirst, vs, _, tail?,
      rfl, htail, rfl, rfl⟩ hne
    refine ⟨List.cons_ne_nil _ _, ?_⟩
    rcases htail with ⟨-, rfl, rfl⟩ | ⟨comma, ws, tail, hcomma, rfl, rfl, htail⟩
    · refine ⟨[(us, first)], ?_, rfl, hcount, by simpa using hfirst⟩
      simpa using Commas.one
    · obtain ⟨htail, parts, hcommas, rfl, hlength, hparts⟩ := htail (by simpa using hne)
      refine ⟨(us, first) :: parts, ?_, rfl, ?_, ?_⟩
      · have hsome : parts.map (·.1) ≠ [] := by simpa using htail
        simpa using Commas.cons hcomma hsome hcommas
      · rw [List.length_cons]
        omega
      · rintro p (_ | ⟨_, hp⟩)
        · exact hfirst
        · exact hparts p hp

theorem Yields.listed {item : Reading α} {I : List Token → α → Prop}
    (hitem : Yields room item fun _ ts _ a => I ts a) (tooMany : GrammarFault) :
    Yields room (listed item tooMany room) fun _ ts rest as =>
      rest ≠ [] → Listed I 0 ts as := by
  have hlist (seen : Bool) : Yields room
      (if seen then return [] else Reading.separated item tooMany room 0)
      fun _ ts rest as => rest ≠ [] → Listed I 0 ts as := by
    cases seen
    · exact (hitem.separated tooMany room (Nat.le_refl _) 0).mono fun _ _ _ _ h hne => (h hne).2
    · refine (yields_pure []).mono ?_
      rintro _ _ _ _ ⟨rfl, rfl⟩ _
      exact ⟨[], .nil, rfl, by simp, nofun⟩
  refine ((yields_sees .rightParen).bind hlist).mono ?_
  rintro opens ts rest as ⟨us, vs, _, rfl, rfl, h⟩
  exact h

/-! ## Declarations in a row -/

/-- The language of one declaration, where the reader recovers from faults. -/
structure YieldsItem (room : Nat) (item : Cursor → Option Stmt × Cursor)
    (D : Nat → List Token → Stmt → Prop) : Prop where
  keeps : KeepsItem Extends item
  read {c : Cursor} : c.ahead.length ≤ room → (item c).2.faults = c.faults →
    ∃ s ts, (item c).1 = some s ∧ c.ahead = ts ++ (item c).2.ahead ∧
      (item c).2.openFunctions = c.openFunctions ∧ D c.openFunctions ts s

/-- Recovery is silent about nothing: where no fault was noted, there was
nothing to recover from. -/
theorem Yields.recovering {m : Reading Stmt} {D : Nat → List Token → Stmt → Prop}
    (hm : Yields room m fun opens ts _ s => D opens ts s) :
    YieldsItem room (recovering m) D where
  keeps := hm.keeps.recovering steady_extends
  read := by
    intro c hroom hfaults
    have hkeep := hm.keeps c
    unfold Reading.recovering at hfaults ⊢
    cases hrun : m c with
    | ok s c' =>
      rw [hrun] at hfaults
      obtain ⟨ts, hts, hopens, hD⟩ := hm.read hrun hroom hfaults
      exact ⟨s, ts, rfl, hts, hopens, hD⟩
    | error e c' =>
      rw [hrun] at hfaults hkeep
      cases e with
      | fault =>
        -- skipping takes no fault away
        have hskip := steady_extends.skipToBoundary c'
        exact absurd (hkeep.faults_eq hskip hfaults).1 (hm.refused hrun)
      | tooDeep =>
        have hnote := steady_extends.note_cursor c' .nestingTooDeep
        have hskip := steady_extends.skipToBoundary (c'.note .nestingTooDeep)
        have hboth : Extends c (c'.note .nestingTooDeep) := steady_extends.trans hkeep hnote
        have heq := (hboth.faults_eq hskip hfaults).1
        exact absurd (hkeep.faults_eq hnote heq).2 (Cursor.faults_note_ne c' _)

/-- The declarations that were read, with their tokens. -/
def InRow (D : Nat → List Token → Stmt → Prop) (opens : Nat) (ts : List Token)
    (program : List Stmt) : Prop :=
  ∃ parts : List (List Token × Stmt), ts = parts.flatMap (·.1) ∧ program = parts.map (·.2) ∧
    ∀ p ∈ parts, D opens p.1 p.2

theorem InRow.cons {D : Nat → List Token → Stmt → Prop} {opens : Nat} {ts us : List Token}
    {s : Stmt} {program : List Stmt} (hs : D opens ts s) (h : InRow D opens us program) :
    InRow D opens (ts ++ us) (s :: program) := by
  obtain ⟨parts, rfl, rfl, hparts⟩ := h
  refine ⟨(ts, s) :: parts, rfl, rfl, ?_⟩
  rintro p (_ | ⟨_, hp⟩)
  · exact hs
  · exact hparts p hp

/-- **Declarations in a row**, with what stopped them. -/
theorem YieldsItem.declarations {item : Cursor → Option Stmt × Cursor}
    {D : Nat → List Token → Stmt → Prop} (hitem : YieldsItem room item D)
    (hpos : ∀ opens ts s, D opens ts s → 0 < ts.length) (stop : Cursor → Bool) (room' : Nat)
    (done : List Stmt) {c c' : Cursor} {program : List Stmt} (hroom : c.ahead.length ≤ room)
    (hroom' : c.ahead.length ≤ room')
    (hrun : declarations stop item room' done c = (program, c')) (hfaults : c'.faults = c.faults) :
    ∃ ts more, c.ahead = ts ++ c'.ahead ∧ c'.openFunctions = c.openFunctions ∧
      program = done.reverse ++ more ∧ InRow D c.openFunctions ts more ∧
      (stop c' = true ∨ c'.ahead = []) := by
  induction room' generalizing done c with
  | zero =>
    obtain ⟨rfl, rfl⟩ := Prod.mk.inj hrun
    refine ⟨[], [], rfl, rfl, by simp, ⟨[], rfl, rfl, nofun⟩, .inr ?_⟩
    exact List.eq_nil_of_length_eq_zero (Nat.le_zero.1 hroom')
  | succ room' ih =>
    rw [Reading.declarations] at hrun
    split at hrun
    · rename_i hstop
      obtain ⟨rfl, rfl⟩ := Prod.mk.inj hrun
      exact ⟨[], [], rfl, rfl, by simp, ⟨[], rfl, rfl, nofun⟩, .inl hstop⟩
    · change Reading.declarations stop item room' ((item c).1.toList ++ done) (item c).2 = _ at hrun
      have hkeep' := hitem.keeps.declarations steady_extends stop room'
        ((item c).1.toList ++ done) (item c).2
      rw [hrun] at hkeep'
      obtain ⟨hfaults₁, hfaults₂⟩ := (hitem.keeps c).faults_eq hkeep' hfaults
      obtain ⟨s, ts, hs, hts, hopens, hD⟩ := hitem.read hroom hfaults₁
      have hlength := congrArg List.length hts
      have := hpos _ _ _ hD
      rw [List.length_append] at hlength
      obtain ⟨us, more, hus, hopens', rfl, hmore, hend⟩ :=
        ih _ (by omega) (by omega) hrun hfaults₂
      refine ⟨ts ++ us, s :: more, by rw [hts, hus, List.append_assoc], hopens'.trans hopens,
        by simp [hs], ?_, hend⟩
      exact InRow.cons hD (hopens ▸ hmore)

theorem YieldsItem.block {item : Cursor → Option Stmt × Cursor}
    {D : Nat → List Token → Stmt → Prop} (hitem : YieldsItem room item D)
    (hpos : ∀ opens ts s, D opens ts s → 0 < ts.length) :
    Yields room (block item room) fun opens ts _ statements => ∃ us endBrace,
      endBrace.kind = .rightBrace ∧ ts = us ++ [endBrace] ∧ InRow D opens us statements := by
  have hbody : Yields room (body item room) fun opens ts _ statements =>
      InRow D opens ts statements := by
    refine ⟨fun c => hitem.keeps.declarations steady_extends closesBlock room [] c, nofun, ?_⟩
    intro c c' statements h hroom hfaults
    obtain ⟨rfl, rfl⟩ := EStateM.Result.ok.inj h
    obtain ⟨ts, more, hts, hopens, heq, hmore, -⟩ :=
      hitem.declarations hpos closesBlock room [] hroom hroom rfl hfaults
    rw [heq]
    exact ⟨ts, hts, hopens, hmore⟩
  rw [block_eq]
  refine (hbody.bind fun statements => Yields.expect fun endBrace _ =>
    yields_pure statements).mono ?_
  rintro opens ts rest _ ⟨us, vs, statements, rfl, hrow, endBrace, ws, hkind, rfl, rfl, rfl⟩
  exact ⟨us, endBrace, hkind, rfl, hrow⟩

end Reading

end Treewalk
