import Treewalk.Proofs.Grammar.Progress

/-!
# Where faults are noted

A fault is noted at the next token and reading goes on from there, so faults
stand in the order in which they are noted. There is one exception. **An
assignment to what is no variable is noted once its right side is read**, at
a sign that comes before that side; what was noted in the right side then
stands behind it. Those are faults that an expression can be read past: other
such assignments, and arguments past the allowed number.
-/

namespace Treewalk

/-- The faults past which an expression is read to its end. -/
def GrammarFault.Passing (cause : GrammarFault) : Prop :=
  cause = .invalidTarget ∨ cause = .tooManyArguments

namespace Fault

/-- The fault stands at its token in a list, or at the end of it. -/
def StandsIn (ts : List Token) (f : Fault) : Prop :=
  f.left ≤ ts.length ∧ f.token = ts[f.position ts.length]?

/-- One fault can be noted before another: it stands no further on, or the
other is noted at the sign of an assignment. -/
def MayPrecede (f g : Fault) : Prop :=
  g.left ≤ f.left ∨ g.cause = .invalidTarget ∧ f.cause.Passing

theorem StandsIn.of_suffix {ts us : List Token} {f : Fault} (h : f.StandsIn us)
    (hsuffix : us <:+ ts) : f.StandsIn ts := by
  obtain ⟨read, rfl⟩ := hsuffix
  obtain ⟨hleft, htoken⟩ := h
  have hlength : (read ++ us).length = read.length + us.length := List.length_append
  have hposition : f.position (read ++ us).length = read.length + f.position us.length := by
    rw [hlength, position, position]
    omega
  refine ⟨by omega, ?_⟩
  rw [htoken, hposition, List.getElem?_append_right (by omega), Nat.add_sub_cancel_left]

theorem standsIn_cons (t : Token) (rest : List Token) (cause : GrammarFault) :
    StandsIn (t :: rest) ⟨rest.length + 1, some t, cause⟩ := by
  simp [StandsIn, position]

theorem standsIn_nil (cause : GrammarFault) : StandsIn [] ⟨0, none, cause⟩ := by
  simp [StandsIn, position]

end Fault

namespace Reading

variable {α β : Type} {P : GrammarFault → Prop}

/-- Between two cursors the faults `added` were noted, of causes in `P`: each
at its own token, and in an order that is allowed. -/
structure Noted (P : GrammarFault → Prop) (c c' : Cursor) (added : List Fault) : Prop where
  further : Further c c'
  faults : c'.faults.toList = c.faults.toList ++ added
  ordered : added.Pairwise Fault.MayPrecede
  standing : ∀ f ∈ added, f.StandsIn c.ahead
  passed : ∀ f ∈ added, c'.ahead.length ≤ f.left
  causes : ∀ f ∈ added, P f.cause

theorem Noted.silent {c c' : Cursor} (hfurther : Further c c') (hfaults : c'.faults = c.faults) :
    Noted P c c' [] where
  further := hfurther
  faults := by rw [hfaults, List.append_nil]
  ordered := .nil
  standing := List.forall_mem_nil _
  passed := List.forall_mem_nil _
  causes := List.forall_mem_nil _

theorem Noted.mono {P' : GrammarFault → Prop} {c c' : Cursor} {added : List Fault}
    (h : Noted P c c' added) (hP : ∀ cause, P cause → P' cause) : Noted P' c c' added :=
  { h with causes := fun f hf => hP _ (h.causes f hf) }

/-- What is noted later stands no further back than the cursor between, and
what was noted before no further on. -/
theorem Noted.trans {a b c : Cursor} {first second : List Fault} (hab : Noted P a b first)
    (hbc : Noted P b c second) : Noted P a c (first ++ second) where
  further := steady_further.trans hab.further hbc.further
  faults := by rw [hbc.faults, hab.faults, List.append_assoc]
  ordered := by
    refine List.pairwise_append.2 ⟨hab.ordered, hbc.ordered, fun f hf g hg => ?_⟩
    have hbefore : b.ahead.length ≤ f.left := hab.passed f hf
    have hafter : g.left ≤ b.ahead.length := (hbc.standing g hg).1
    exact .inl (Nat.le_trans hafter hbefore)
  standing := by
    intro f hf
    rcases List.mem_append.1 hf with hf | hf
    · exact hab.standing f hf
    · exact (hbc.standing f hf).of_suffix hab.further
  passed := by
    intro f hf
    rcases List.mem_append.1 hf with hf | hf
    · exact Nat.le_trans hbc.further.length_le (hab.passed f hf)
    · exact hbc.passed f hf
  causes := by
    intro f hf
    rcases List.mem_append.1 hf with hf | hf
    · exact hab.causes f hf
    · exact hbc.causes f hf

/-- A fault is noted at a token that is still to be read, or was the last one
read before what `inner` notes. -/
theorem Noted.push {c c' : Cursor} {inner : List Fault} {f : Fault} (h : Noted P c c' inner)
    (hstanding : f.StandsIn c.ahead) (hpassed : c'.ahead.length ≤ f.left)
    (hordered : ∀ g ∈ inner, g.MayPrecede f) (hcause : P f.cause) :
    Noted P c { c' with faults := c'.faults.push f } (inner ++ [f]) where
  further := h.further
  faults := by rw [Array.toList_push, h.faults, List.append_assoc]
  ordered := by
    refine List.pairwise_append.2 ⟨h.ordered, List.pairwise_singleton _ _, fun g hg f' hf' => ?_⟩
    obtain rfl := List.mem_singleton.1 hf'
    exact hordered g hg
  standing := List.forall_mem_append.2 ⟨h.standing, List.forall_mem_singleton.2 hstanding⟩
  passed := List.forall_mem_append.2 ⟨h.passed, List.forall_mem_singleton.2 hpassed⟩
  causes := List.forall_mem_append.2 ⟨h.causes, List.forall_mem_singleton.2 hcause⟩

theorem noted_note (c : Cursor) (cause : GrammarFault) (hcause : P cause) :
    ∃ f, Noted P c (c.note cause) [f] := by
  obtain ⟨ahead, faults, opens⟩ := c
  have hstart : Noted P ⟨ahead, faults, opens⟩ ⟨ahead, faults, opens⟩ [] :=
    .silent List.suffix_rfl rfl
  cases ahead with
  | nil => exact ⟨_, hstart.push (Fault.standsIn_nil cause) (Nat.le_refl _) (List.forall_mem_nil _) hcause⟩
  | cons t rest =>
    exact ⟨_, hstart.push (Fault.standsIn_cons t rest cause) (Nat.le_refl _) (List.forall_mem_nil _) hcause⟩

/-! ## Small steps and sequences -/

/-- From a cursor, a reading came to an outcome and noted faults of causes in
`P`, or of any cause if it was abandoned. -/
def NotedTo (P : GrammarFault → Prop) (c : Cursor) : EStateM.Result Abandoned Cursor α → Prop
  | .ok _ c' => ∃ added, Noted P c c' added
  | .error _ c' => ∃ added, Noted (fun _ => True) c c' added

/-- A reading notes its faults in order. -/
def Notes (P : GrammarFault → Prop) (m : Reading α) : Prop := ∀ c, NotedTo P c (m c)

/-- A reading behind a token may also note faults at that token. -/
def NotesBehind (P : GrammarFault → Prop) (t : Token) (m : Reading α) : Prop :=
  ∀ rest faults opens, NotedTo P ⟨t :: rest, faults, opens⟩ (m ⟨rest, faults, opens⟩)

theorem NotedTo.after {a b : Cursor} {added : List Fault} {r : EStateM.Result Abandoned Cursor α}
    (h : NotedTo P b r) (hab : Noted P a b added) : NotedTo P a r := by
  cases r with
  | ok x c =>
    obtain ⟨more, hbc⟩ := h
    exact ⟨_, hab.trans hbc⟩
  | error e c =>
    obtain ⟨more, hbc⟩ := h
    exact ⟨_, (hab.mono fun _ _ => trivial).trans hbc⟩

theorem NotedTo.mono {P' : GrammarFault → Prop} {c : Cursor}
    {r : EStateM.Result Abandoned Cursor α} (h : NotedTo P c r) (hP : ∀ cause, P cause → P' cause) :
    NotedTo P' c r := by
  cases r with
  | ok x c' =>
    obtain ⟨added, hadded⟩ := h
    exact ⟨added, hadded.mono hP⟩
  | error e c' => exact h

theorem NotedTo.bind {c c₁ : Cursor} {m : Reading α} {f : α → Reading β}
    (hm : NotedTo P c (m c₁)) (hf : ∀ a, Notes P (f a)) : NotedTo P c ((m >>= f) c₁) := by
  cases hrun : m c₁ with
  | ok a c₂ =>
    rw [hrun] at hm
    obtain ⟨added, hadded⟩ := hm
    rw [bind_ok hrun]
    exact (hf a c₂).after hadded
  | error e c₂ =>
    rw [hrun] at hm
    rw [bind_error hrun]
    exact hm

theorem notes_pure (a : α) : Notes P (pure a) := fun _ => ⟨[], .silent List.suffix_rfl rfl⟩

theorem notes_note {cause : GrammarFault} (h : P cause) : Notes P (note cause) := by
  intro c
  obtain ⟨f, hf⟩ := noted_note c cause h
  exact ⟨[f], hf⟩

theorem notes_refuse (cause : GrammarFault) : Notes P (refuse cause : Reading α) := by
  intro c
  obtain ⟨f, hf⟩ := noted_note (P := fun _ => True) c cause trivial
  exact ⟨[f], hf⟩

theorem Notes.behind {m : Reading α} (hm : Notes P m) (t : Token) : NotesBehind P t m := by
  intro rest faults opens
  have hread : Noted P ⟨t :: rest, faults, opens⟩ ⟨rest, faults, opens⟩ [] :=
    .silent (List.suffix_cons t rest) rfl
  exact (hm ⟨rest, faults, opens⟩).after hread

theorem Notes.accept {kinds : List Kind} {f : Option Token → Reading α} (hnone : Notes P (f none))
    (hsome : ∀ t, NotesBehind P t (f (some t))) : Notes P (accept kinds >>= f) := by
  intro c
  rcases accept_cases kinds c with ⟨t, rest, -, -, hahead, hrun⟩ | ⟨-, hrun⟩
  · obtain ⟨_, faults, opens⟩ := c
    subst hahead
    rw [bind_ok hrun]
    exact hsome t rest faults opens
  · rw [bind_ok hrun]
    exact hnone c

theorem congruence_notes :
    Congruence (fun _ m _ => Notes P m) (fun t _ m _ => NotesBehind P t m) where
  pure a := notes_pure a
  tooDeep := fun _ => ⟨[], .silent List.suffix_rfl rfl⟩
  bind hm hf := fun c => (hm c).bind hf
  sees _ := fun _ => ⟨[], .silent List.suffix_rfl rfl⟩
  accept hnone hsome := Notes.accept hnone hsome
  refuse cause := notes_refuse cause
  behind t h := h.behind t

theorem Notes.mono {P' : GrammarFault → Prop} {m : Reading α} (hm : Notes P m)
    (hP : ∀ cause, P cause → P' cause) : Notes P' m := fun c => (hm c).mono hP

theorem Notes.bind {m : Reading α} {f : α → Reading β} (hm : Notes P m) (hf : ∀ a, Notes P (f a)) :
    Notes P (m >>= f) := fun c => (hm c).bind hf

theorem notes_take (kind : Kind) : Notes P (take kind) :=
  Notes.accept (notes_pure false) fun t => (notes_pure true).behind t

theorem notes_expect (kind : Kind) (cause : GrammarFault) : Notes P (expect kind cause) :=
  congruence_notes.expect kind cause

theorem Notes.unlessSeen {clause : Reading α} (h : Notes P clause) (kind : Kind) :
    Notes P (unlessSeen kind clause) :=
  @Congruence.unlessSeen _ _ congruence_notes _ clause clause h kind

theorem Notes.ifTaken {clause : Reading α} (h : Notes P clause) (kind : Kind) :
    Notes P (ifTaken kind clause) :=
  @Congruence.ifTaken _ _ congruence_notes _ clause clause h kind

theorem Notes.withinFunction {m : Reading α} (hm : Notes P m) : Notes P (withinFunction m) := by
  intro c
  have hrun := hm { c with openFunctions := c.openFunctions + 1 }
  unfold Reading.withinFunction
  generalize m { c with openFunctions := c.openFunctions + 1 } = r at hrun ⊢
  -- the count of open functions has no part in what is noted
  cases r with
  | ok a c' =>
    obtain ⟨added, h⟩ := hrun
    exact ⟨added, ⟨h.further, h.faults, h.ordered, h.standing, h.passed, h.causes⟩⟩
  | error e c' =>
    obtain ⟨added, h⟩ := hrun
    exact ⟨added, ⟨h.further, h.faults, h.ordered, h.standing, h.passed, h.causes⟩⟩

/-! ## Lists -/

theorem Notes.separated {item : Reading α} (hitem : Notes P item) {tooMany : GrammarFault}
    (hcause : P tooMany) (room count : Nat) : Notes P (separated item tooMany room count) := by
  induction room generalizing count with
  | zero => exact notes_pure _
  | succ room ih =>
    have hover : Notes P (noteOver tooMany count) := by
      unfold noteOver
      split
      · exact notes_note hcause
      · exact notes_pure ()
    rw [separated_succ]
    exact hover.bind fun _ => hitem.bind fun first =>
      ((ih (count + 1)).ifTaken .comma).bind fun rest => notes_pure _

theorem Notes.listed {item : Reading α} (hitem : Notes P item) {tooMany : GrammarFault}
    (hcause : P tooMany) (room : Nat) : Notes P (listed item tooMany room) := by
  refine Notes.bind (congruence_notes.sees .rightParen) fun closed => ?_
  split
  · exact notes_pure _
  · exact hitem.separated hcause room 0

/-! ## Expressions -/

theorem Notes.chain {operand : Reading Expr} (hoperand : Notes P operand) (level : Level)
    (room : Nat) (left : Expr) : Notes P (chain operand level room left) := by
  induction room generalizing left with
  | zero => exact notes_pure left
  | succ room ih =>
    rw [Reading.chain]
    refine Notes.accept (notes_pure left) fun operator => ?_
    exact (hoperand.bind fun right => ih (level.node left operator right)).behind operator

theorem Notes.calls {arguments : Reading (List Expr)} (harguments : Notes P arguments)
    (room : Nat) (callee : Expr) : Notes P (calls arguments room callee) := by
  induction room generalizing callee with
  | zero => exact notes_pure callee
  | succ room ih =>
    rw [Reading.calls]
    refine (notes_take .leftParen).bind fun taken => ?_
    split
    · exact harguments.bind fun es => (notes_expect _ _).bind fun paren =>
        ih (.call callee paren es)
    · exact notes_pure callee

/-- **What an assignment notes stands in front of what its right side
noted**, and comes behind it. -/
theorem Notes.assigned {value : Reading Expr} (hvalue : Notes GrammarFault.Passing value)
    (target : Expr) (equals : Token) :
    NotesBehind GrammarFault.Passing equals (assigned target equals value) := by
  intro rest faults opens
  have hright := hvalue.behind equals rest faults opens
  have hassigned : Reading.assigned target equals value ⟨rest, faults, opens⟩ =
      (value >>= assignTo target equals rest) ⟨rest, faults, opens⟩ := rfl
  rw [hassigned]
  cases hrun : value ⟨rest, faults, opens⟩ with
  | error e c =>
    rw [hrun] at hright
    rw [bind_error hrun]
    exact hright
  | ok e c =>
    have hpassed := hvalue ⟨rest, faults, opens⟩
    rw [hrun] at hright hpassed
    obtain ⟨inner, hinner⟩ := hright
    obtain ⟨_, hwithin⟩ := hpassed
    have hlength : c.ahead.length ≤ rest.length + 1 :=
      Nat.le_succ_of_le hwithin.further.length_le
    have hnoted := hinner.push (Fault.standsIn_cons equals rest .invalidTarget) hlength
      (fun f hf => .inr ⟨rfl, hinner.causes f hf⟩) (.inl rfl)
    rw [bind_ok hrun]
    unfold assignTo
    split
    · exact ⟨inner, hinner⟩
    · exact ⟨_, hnoted⟩

theorem notes_expression (room depth : Nat) :
    Notes GrammarFault.Passing (expression room depth) := by
  refine (congruence_notes.expressions room room ?_ ?_ ?_ depth).1
  · intro operand _ hoperand level left
    exact hoperand.chain level room left
  · intro value _ hvalue callee
    exact (hvalue.listed (.inr rfl) room).calls room callee
  · intro value _ hvalue target equals
    exact hvalue.assigned target equals

/-! ## Statements -/

/-- The causes of all faults. -/
abbrev AnyCause (_ : GrammarFault) : Prop := True

/-- The reading of one declaration notes its faults in order. -/
def NotesItem (item : Cursor → Option Stmt × Cursor) : Prop :=
  ∀ c, ∃ added, Noted AnyCause c (item c).2 added

theorem noted_skipToBoundary (c : Cursor) : Noted P c c.skipToBoundary [] := by
  refine .silent (steady_further.skipToBoundary c) ?_
  unfold Cursor.skipToBoundary
  split
  · rfl
  · split <;> rfl

theorem Notes.recovering {m : Reading Stmt} (hm : Notes AnyCause m) : NotesItem (recovering m) := by
  intro c
  have hrun := hm c
  unfold Reading.recovering
  generalize m c = r at hrun
  cases r with
  | ok s c' => exact hrun
  | error e c' =>
    obtain ⟨added, hadded⟩ := hrun
    cases e with
    | fault => exact ⟨_, hadded.trans (noted_skipToBoundary c')⟩
    | tooDeep =>
      obtain ⟨f, hf⟩ := noted_note (P := AnyCause) c' .nestingTooDeep trivial
      exact ⟨_, (hadded.trans hf).trans (noted_skipToBoundary _)⟩

theorem NotesItem.declarations {item : Cursor → Option Stmt × Cursor} (hitem : NotesItem item)
    (stop : Cursor → Bool) (room : Nat) (done : List Stmt) (c : Cursor) :
    ∃ added, Noted AnyCause c (declarations stop item room done c).2 added := by
  induction room generalizing done c with
  | zero => exact ⟨[], .silent List.suffix_rfl rfl⟩
  | succ room ih =>
    rw [Reading.declarations]
    split
    · exact ⟨[], .silent List.suffix_rfl rfl⟩
    · obtain ⟨first, hfirst⟩ := hitem c
      obtain ⟨more, hmore⟩ := ih ((item c).1.toList ++ done) (item c).2
      exact ⟨first ++ more, hfirst.trans hmore⟩

theorem NotesItem.block {item : Cursor → Option Stmt × Cursor} (hitem : NotesItem item)
    (room : Nat) : Notes AnyCause (block item room) := by
  have hbody : Notes AnyCause (body item room) := fun c =>
    hitem.declarations closesBlock room [] c
  rw [block_eq]
  exact hbody.bind fun _ => (notes_expect _ _).bind fun _ => notes_pure _

theorem Notes.functionDeclaration {body : Reading (List Stmt)} (hbody : Notes AnyCause body)
    (room : Nat) : Notes AnyCause (functionDeclaration body room) :=
  (notes_expect _ _).bind fun _ => (notes_expect _ _).bind fun _ =>
    ((notes_expect _ _).listed trivial room).bind fun _ => (notes_expect _ _).bind fun _ =>
      (notes_expect _ _).bind fun _ => hbody.withinFunction.bind fun _ => notes_pure _

theorem notesBehind_checkReturn (keyword : Token) :
    NotesBehind AnyCause keyword (checkReturn keyword) := by
  intro rest faults opens
  have hread : Noted AnyCause ⟨keyword :: rest, faults, opens⟩ ⟨rest, faults, opens⟩ [] :=
    .silent (List.suffix_cons keyword rest) rfl
  have hnoted := hread.push (Fault.standsIn_cons keyword rest .returnOutsideFunction)
    (Nat.le_succ _) (List.forall_mem_nil _) trivial
  unfold checkReturn
  split
  · exact ⟨_, hnoted⟩
  · exact ⟨_, hread⟩

theorem Notes.returnStatement {value : Reading Expr} (hvalue : Notes AnyCause value)
    (keyword : Token) : NotesBehind AnyCause keyword (returnStatement keyword value) := by
  intro rest faults opens
  rw [returnStatement_eq]
  exact (notesBehind_checkReturn keyword rest faults opens).bind fun _ =>
    (hvalue.unlessSeen _).bind fun _ => (notes_expect _ _).bind fun _ => notes_pure _

theorem notes_attempt (room depth : Nat) : Notes AnyCause (attempt room depth) := by
  refine (congruence_notes.statements room room ?_ ?_ ?_ ?_ depth).1
  · exact fun depth => (notes_expression room depth).mono fun _ _ => trivial
  · exact fun hbody keyword => (hbody.functionDeclaration room).behind keyword
  · exact fun hvalue keyword => hvalue.returnStatement keyword
  · intro depth hattempt
    rw [declaration_eq]
    exact hattempt.recovering.block room

/-- **The faults of a program stand where they say, in an order that is
allowed.** -/
theorem noted_readAll (depth : Nat) (ts : List Token) :
    (readAll depth ts).2.faults.toList.Pairwise Fault.MayPrecede ∧
      ∀ f ∈ (readAll depth ts).2.faults.toList, f.StandsIn ts := by
  have hitem : NotesItem (declaration ts.length depth) := by
    rw [declaration_eq]
    exact (notes_attempt ts.length depth).recovering
  obtain ⟨added, hadded⟩ := hitem.declarations Cursor.atEnd ts.length [] { ahead := ts }
  have hfaults : (readAll depth ts).2.faults.toList = added := hadded.faults
  rw [hfaults]
  exact ⟨hadded.ordered, hadded.standing⟩

end Reading

end Treewalk
