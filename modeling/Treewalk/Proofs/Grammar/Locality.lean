import Treewalk.Proofs.Grammar.Progress

/-!
# Reading in another place

A reading looks at its tokens one by one, and never at the faults noted
before it. So it goes the same way when other tokens come behind its own and
other faults were noted before: **unless it comes to the end of its own
tokens**, where it would see what comes behind. Even there it goes the same
way if what comes behind is the mark at the end of input, for no reading goes
past it. The bound on the rounds of a loop makes no difference either, as
long as there is a round for every token. `Local` says all this of two
readings; it passes from the parts of a reading to the whole, and so holds of
every declaration.
-/

namespace Treewalk

/-- The fault as it is noted with the tokens `rest` behind: where no token was
left, it is at the first of them. -/
def Fault.pushed (rest : List Token) (f : Fault) : Fault :=
  { f with left := f.left + rest.length, token := f.token.or rest.head? }

theorem Fault.pushed_nil : Fault.pushed [] = id := by
  funext f
  simp [Fault.pushed]

theorem Fault.pushed_pushed (rest others : List Token) (f : Fault) :
    (f.pushed rest).pushed others = f.pushed (rest ++ others) := by
  simp [Fault.pushed, Nat.add_assoc, Option.or_assoc, List.head?_append]

/-- The cursor with the tokens `rest` behind its own, and the faults `before`
noted before its own. -/
def Cursor.placed (rest : List Token) (before : Array Fault) (c : Cursor) : Cursor :=
  ⟨c.ahead ++ rest, before ++ c.faults.map (Fault.pushed rest), c.openFunctions⟩

namespace Cursor

variable (rest : List Token) (before : Array Fault) (c : Cursor)

@[simp] theorem ahead_placed : (c.placed rest before).ahead = c.ahead ++ rest := rfl

@[simp] theorem openFunctions_placed :
    (c.placed rest before).openFunctions = c.openFunctions := rfl

theorem placed_noteAt (t : Token) (behind : List Token) (cause : GrammarFault) :
    (c.noteAt t behind cause).placed rest before =
      (c.placed rest before).noteAt t (behind ++ rest) cause := by
  simp [placed, noteAt, Fault.pushed, Nat.add_right_comm]

/-- A fault noted at the next token is at the first token behind, if none is
left of the cursor's own. -/
theorem placed_note (cause : GrammarFault) :
    (c.note cause).placed rest before = (c.placed rest before).note cause := by
  obtain ⟨ahead, faults, opens⟩ := c
  cases ahead with
  | nil => cases rest <;> simp [note, noteAt, placed, Fault.pushed]
  | cons t ahead => exact placed_noteAt rest before _ t ahead cause

end Cursor

namespace Reading

variable {α β : Type}

/-- The outcome with its cursor in another place. -/
def placed (rest : List Token) (before : Array Fault) :
    EStateM.Result Abandoned Cursor α → EStateM.Result Abandoned Cursor α
  | .ok a c => .ok a (c.placed rest before)
  | .error e c => .error e (c.placed rest before)

/-- A cursor that comes to the end of its own tokens, in front of others to be
read. -/
def Short (rest : List Token) (c : Cursor) : Prop := c.ahead = [] ∧ ¬ Ends rest

/-- One cursor came to the end of its own tokens, and the other to the tokens
behind. -/
def Overran (rest : List Token) (c c' : Cursor) : Prop :=
  Short rest c ∧ c'.ahead.length ≤ rest.length

theorem Overran.further {rest : List Token} {c c₁ c' c₁' : Cursor} (h : Overran rest c c')
    (hc : Further c c₁) (hc' : Further c' c₁') : Overran rest c₁ c₁' := by
  obtain ⟨⟨hend, hrest⟩, hle⟩ := h
  have hend₁ : c₁.ahead = [] := by
    rw [Further, hend] at hc
    exact List.suffix_nil.1 hc
  exact ⟨⟨hend₁, hrest⟩, Nat.le_trans hc'.length_le hle⟩

theorem Short.overran {rest : List Token} {c : Cursor} (h : Short rest c) (before : Array Fault) :
    Overran rest c (c.placed rest before) := by
  have hrest : (c.placed rest before).ahead = rest := by
    rw [Cursor.ahead_placed, h.1, List.nil_append]
  exact ⟨h, Nat.le_of_eq (congrArg List.length hrest)⟩

/-- With fewer than `n` tokens of its own, `m'` goes in another place as `m`
does in its own, unless they come to the tokens behind. -/
structure Local (n : Nat) (rest : List Token) (before : Array Fault) (m m' : Reading α) :
    Prop where
  further : Keeps Further m
  further' : Keeps Further m'
  run (c : Cursor) : c.ahead.length < n → ¬ Short rest c →
    m' (c.placed rest before) = placed rest before (m c) ∨
      Overran rest (final (m c)) (final (m' (c.placed rest before)))

variable {n : Nat} {rest : List Token} {before : Array Fault}

/-- At the end of its own tokens, a reading has overrun them from the start. -/
theorem Local.apply {m m' : Reading α} (h : Local n rest before m m') (c : Cursor)
    (hlength : c.ahead.length < n) :
    m' (c.placed rest before) = placed rest before (m c) ∨
      Overran rest (final (m c)) (final (m' (c.placed rest before))) := by
  by_cases hshort : Short rest c
  · exact .inr ((hshort.overran before).further (h.further c) (h.further' _))
  · exact h.run c hlength hshort

theorem Local.of_le {m m' : Reading α} (h : Local n rest before m m') {k : Nat} (hle : k ≤ n) :
    Local k rest before m m' where
  further := h.further
  further' := h.further'
  run c hlength := h.run c (Nat.lt_of_lt_of_le hlength hle)

/-! ## Small steps and sequences -/

theorem local_pure (a : α) : Local n rest before (pure a) (pure a) where
  further := keeps_pure steady_further a
  further' := keeps_pure steady_further a
  run _ _ _ := .inl rfl

theorem local_throw (e : Abandoned) : Local n rest before (throw e : Reading α) (throw e) where
  further := keeps_throw steady_further e
  further' := keeps_throw steady_further e
  run _ _ _ := .inl rfl

/-- What comes behind a step stands further on than the step. -/
theorem further_bind {m : Reading α} {f : α → Reading β} (hf : ∀ a, Keeps Further (f a))
    (c : Cursor) : Further (final (m c)) (final ((m >>= f) c)) := by
  cases hrun : m c with
  | ok a c₁ =>
    rw [bind_ok hrun]
    exact hf a c₁
  | error e c₁ =>
    rw [bind_error hrun]
    exact steady_further.refl c₁

theorem Local.bind {m m' : Reading α} {f f' : α → Reading β} (hm : Local n rest before m m')
    (hf : ∀ a, Local n rest before (f a) (f' a)) :
    Local n rest before (m >>= f) (m' >>= f') where
  further := hm.further.bind steady_further fun a => (hf a).further
  further' := hm.further'.bind steady_further fun a => (hf a).further'
  run := by
    intro c hlength hshort
    rcases hm.run c hlength hshort with hsame | hover
    · have hfirst := hm.further c
      cases hrun : m c with
      | ok a c₁ =>
        rw [hrun] at hsame hfirst
        have hlength₁ : c₁.ahead.length < n := Nat.lt_of_le_of_lt hfirst.length_le hlength
        rw [bind_ok hrun, bind_ok hsame]
        exact (hf a).apply c₁ hlength₁
      | error e c₁ =>
        rw [hrun] at hsame
        rw [bind_error hrun, bind_error hsame]
        exact .inl rfl
    · -- what overran once stays where it is or goes on from there
      exact .inr (hover.further (further_bind (fun a => (hf a).further) c)
        (further_bind (fun a => (hf a).further') _))

theorem Local.map {m m' : Reading α} (hm : Local n rest before m m') (f : α → β) :
    Local n rest before (f <$> m) (f <$> m') := by
  rw [map_eq_bind, map_eq_bind]
  exact hm.bind fun a => local_pure (f a)

/-- In both places the input is at its end, or in neither. -/
theorem ends_placed {c : Cursor} (h : ¬ Short rest c) :
    Ends (c.placed rest before).ahead ↔ Ends c.ahead := by
  rw [Cursor.ahead_placed]
  cases hahead : c.ahead with
  | nil =>
    have hrest : Ends rest := Classical.byContradiction fun hrest => h ⟨hahead, hrest⟩
    simp [hrest]
  | cons t ahead => simp

theorem atEnd_placed {c : Cursor} (h : ¬ Short rest c) :
    (c.placed rest before).atEnd = c.atEnd := by
  rw [Bool.eq_iff_iff, atEnd_iff, atEnd_iff, ends_placed h]

theorem kind?_placed {c : Cursor} (h : c.atEnd = false) :
    (c.placed rest before).kind? = c.kind? := by
  rw [Cursor.kind?, Cursor.kind?, Cursor.ahead_placed]
  cases hahead : c.ahead with
  | nil => exact absurd (hahead ▸ ends_nil) (atEnd_eq_false.1 h)
  | cons t ahead => rfl

theorem local_sees (kind : Kind) : Local n rest before (sees kind) (sees kind) where
  further := keeps_sees steady_further kind
  further' := keeps_sees steady_further kind
  run c _ hshort := by
    left
    rw [sees_apply, sees_apply, atEnd_placed hshort]
    cases hend : c.atEnd with
    | true => rfl
    | false =>
      rw [kind?_placed hend]
      rfl

theorem accept_placed {c : Cursor} (h : ¬ Short rest c) (kinds : List Kind) :
    accept kinds (c.placed rest before) = placed rest before (accept kinds c) := by
  by_cases hend : Ends c.ahead
  · rw [accept_of_ends hend, accept_of_ends ((ends_placed h).2 hend)]
    rfl
  · obtain ⟨ahead, faults, opens⟩ := c
    cases ahead with
    | nil => exact absurd ends_nil hend
    | cons t ahead =>
      have hgo : t.kind ≠ .endOfInput := fun hmark => hend (ends_cons.2 hmark)
      by_cases hkind : t.kind ∈ kinds <;> simp [accept, Cursor.placed, placed, hgo, hkind]

/-- What goes on by whether a token of some kinds comes next. A token that is
taken leaves one less. -/
theorem Local.accept {kinds : List Kind} {f f' : Option Token → Reading α}
    (hnone : Local n rest before (f none) (f' none))
    (hsome : ∀ t, Local (n - 1) rest before (f (some t)) (f' (some t))) :
    Local n rest before (accept kinds >>= f) (accept kinds >>= f') where
  further := by
    refine (keeps_accept steady_further kinds).bind steady_further fun t? => ?_
    cases t? with
    | none => exact hnone.further
    | some t => exact (hsome t).further
  further' := by
    refine (keeps_accept steady_further kinds).bind steady_further fun t? => ?_
    cases t? with
    | none => exact hnone.further'
    | some t => exact (hsome t).further'
  run := by
    intro c hlength hshort
    rcases accept_cases kinds c with ⟨t, ahead, -, -, hahead, hrun⟩ | ⟨-, hrun⟩
    · have hrun' : Reading.accept kinds (c.placed rest before) =
          .ok (some t) (Cursor.placed rest before { c with ahead := ahead }) := by
        rw [accept_placed hshort, hrun]
        rfl
      have hlength' : ahead.length < n - 1 := by
        rw [hahead, List.length_cons] at hlength
        omega
      rw [bind_ok hrun, bind_ok hrun']
      exact (hsome t).apply { c with ahead := ahead } hlength'
    · have hrun' : Reading.accept kinds (c.placed rest before) =
          .ok none (c.placed rest before) := by
        rw [accept_placed hshort, hrun]
        rfl
      rw [bind_ok hrun, bind_ok hrun']
      exact hnone.apply c hlength

theorem Local.take {kind : Kind} {f f' : Bool → Reading α}
    (hleft : Local n rest before (f false) (f' false))
    (htaken : Local (n - 1) rest before (f true) (f' true)) :
    Local n rest before (take kind >>= f) (take kind >>= f') := by
  rw [Reading.take, bind_assoc, bind_assoc]
  exact Local.accept hleft fun _ => htaken

theorem local_note (cause : GrammarFault) : Local n rest before (note cause) (note cause) where
  further := keeps_note steady_further cause
  further' := keeps_note steady_further cause
  run c _ _ := .inl (congrArg (EStateM.Result.ok ()) (c.placed_note rest before cause).symm)

theorem local_refuse (cause : GrammarFault) :
    Local n rest before (refuse cause : Reading α) (refuse cause) where
  further := keeps_refuse steady_further cause
  further' := keeps_refuse steady_further cause
  run c _ _ :=
    .inl (congrArg (EStateM.Result.error Abandoned.fault) (c.placed_note rest before cause).symm)

theorem local_expect (kind : Kind) (cause : GrammarFault) :
    Local n rest before (expect kind cause) (expect kind cause) := by
  refine Local.accept (local_refuse cause) fun t => ?_
  exact local_pure t

theorem Local.withinFunction {m m' : Reading α} (hm : Local n rest before m m') :
    Local n rest before (withinFunction m) (withinFunction m') where
  further := hm.further.withinFunction steady_further
  further' := hm.further'.withinFunction steady_further
  run := by
    intro c hlength hshort
    have hrun := hm.run { c with openFunctions := c.openFunctions + 1 } hlength hshort
    have hplaced : Cursor.placed rest before { c with openFunctions := c.openFunctions + 1 } =
        { c.placed rest before with
          openFunctions := (c.placed rest before).openFunctions + 1 } := rfl
    rw [hplaced] at hrun
    unfold Reading.withinFunction
    generalize m' { c.placed rest before with
      openFunctions := (c.placed rest before).openFunctions + 1 } = r' at hrun ⊢
    generalize m { c with openFunctions := c.openFunctions + 1 } = r at hrun ⊢
    rcases hrun with rfl | hover
    · left
      cases r <;> rfl
    · right
      cases r <;> cases r' <;> exact hover

/-! ## Clauses and lists -/

theorem Local.ifTaken {clause clause' : Reading α}
    (h : Local (n - 1) rest before clause clause') (kind : Kind) :
    Local n rest before (ifTaken kind clause) (ifTaken kind clause') :=
  Local.take (local_pure none) (h.map some)

theorem local_noteOver (tooMany : GrammarFault) (count : Nat) :
    Local n rest before (noteOver tooMany count) (noteOver tooMany count) := by
  unfold noteOver
  split
  · exact local_note tooMany
  · exact local_pure ()

theorem Local.separated {item item' : Reading α} (hitem : Local n rest before item item')
    (tooMany : GrammarFault) {room room' : Nat} (hroom : n ≤ room)
    (hroom' : 0 < n → n + rest.length ≤ room') (count : Nat) :
    Local n rest before (separated item tooMany room count)
      (separated item' tooMany room' count) := by
  have hfurther (room count : Nat) : Keeps Further (Reading.separated item tooMany room count) :=
    hitem.further.separated steady_further tooMany room count
  have hfurther' (room count : Nat) : Keeps Further (Reading.separated item' tooMany room count) :=
    hitem.further'.separated steady_further tooMany room count
  induction n generalizing room room' count with
  | zero => exact ⟨hfurther room count, hfurther' room' count, nofun⟩
  | succ n ih =>
    obtain ⟨room, rfl⟩ : ∃ r, room = r + 1 := ⟨room - 1, by omega⟩
    obtain ⟨room', rfl⟩ : ∃ r, room' = r + 1 := ⟨room' - 1, by omega⟩
    have hmore : Local n rest before (Reading.separated item tooMany room (count + 1))
        (Reading.separated item' tooMany room' (count + 1)) :=
      ih (hitem.of_le (Nat.le_succ n)) (Nat.le_of_succ_le_succ hroom) (fun _ => by omega) _
    rw [separated_succ, separated_succ]
    exact (local_noteOver tooMany count).bind fun _ => hitem.bind fun first =>
      (Local.ifTaken (n := n + 1) hmore .comma).bind fun more => local_pure _

theorem Local.listed {item item' : Reading α} (hitem : Local n rest before item item')
    (tooMany : GrammarFault) {room room' : Nat} (hroom : n ≤ room)
    (hroom' : 0 < n → n + rest.length ≤ room') :
    Local n rest before (listed item tooMany room) (listed item' tooMany room') := by
  refine (local_sees .rightParen).bind fun closed => ?_
  split
  · exact local_pure []
  · exact hitem.separated tooMany hroom hroom' 0

/-! ## Expressions -/

/-- With no token of its own left, a reading that stops there is local. -/
theorem local_of_end {m m' : Reading α} {a : α} (hn : n ≤ 1) (hm : Keeps Further m)
    (hm' : Keeps Further m') (hend : ∀ c : Cursor, Ends c.ahead → m c = .ok a c)
    (hend' : ∀ c : Cursor, Ends c.ahead → m' c = .ok a c) : Local n rest before m m' where
  further := hm
  further' := hm'
  run := by
    intro c hlength hshort
    have hahead : c.ahead = [] := List.eq_nil_of_length_eq_zero (by omega)
    have hends : Ends c.ahead := hahead ▸ ends_nil
    left
    rw [hend c hends, hend' _ ((ends_placed hshort).2 hends)]
    rfl

theorem chain_of_end (operand : Reading Expr) (level : Level) (room : Nat) (left : Expr)
    {c : Cursor} (h : Ends c.ahead) : chain operand level room left c = .ok left c := by
  cases room with
  | zero => rfl
  | succ room =>
    rw [chain, bind_ok (accept_of_ends h level.operators)]
    rfl

theorem calls_of_end (arguments : Reading (List Expr)) (room : Nat) (callee : Expr)
    {c : Cursor} (h : Ends c.ahead) : calls arguments room callee c = .ok callee c := by
  cases room with
  | zero => rfl
  | succ room =>
    have hnone : take .leftParen c = .ok false c := by
      rw [take, bind_ok (accept_of_ends h _)]
      rfl
    rw [calls, bind_ok hnone]
    rfl

/-- A chain takes an operator in every round but its last. -/
theorem Local.chain {operand operand' : Reading Expr}
    (hoperand : Local n rest before operand operand') (level : Level) {room room' : Nat}
    (hroom : n ≤ room + 1) (hroom' : n + rest.length ≤ room' + 1) (left : Expr) :
    Local n rest before (chain operand level room left) (chain operand' level room' left) := by
  have hend (k room room' : Nat) (left : Expr) (hk : k ≤ 1) : Local k rest before
      (Reading.chain operand level room left) (Reading.chain operand' level room' left) :=
    local_of_end hk (hoperand.further.chain steady_further level room left)
      (hoperand.further'.chain steady_further level room' left)
      (fun _ => chain_of_end operand level room left)
      (fun _ => chain_of_end operand' level room' left)
  induction n generalizing room room' left with
  | zero => exact hend 0 room room' left (Nat.zero_le 1)
  | succ n ih =>
    by_cases hn : n = 0
    · exact hend (n + 1) room room' left (by omega)
    · obtain ⟨room, rfl⟩ : ∃ r, room = r + 1 := ⟨room - 1, by omega⟩
      obtain ⟨room', rfl⟩ : ∃ r, room' = r + 1 := ⟨room' - 1, by omega⟩
      have hless := hoperand.of_le (Nat.le_succ n)
      rw [Reading.chain, Reading.chain]
      exact Local.accept (local_pure left) fun operator => hless.bind fun right =>
        ih hless (by omega) (by omega) (level.node left operator right)

/-- A row of calls takes a parenthesis in every round but its last. -/
theorem Local.calls {arguments arguments' : Reading (List Expr)}
    (harguments : Local (n - 1) rest before arguments arguments') {room room' : Nat}
    (hroom : n ≤ room + 1) (hroom' : n + rest.length ≤ room' + 1) (callee : Expr) :
    Local n rest before (calls arguments room callee) (calls arguments' room' callee) := by
  have hend (k room room' : Nat) (callee : Expr) (hk : k ≤ 1) : Local k rest before
      (Reading.calls arguments room callee) (Reading.calls arguments' room' callee) :=
    local_of_end hk (harguments.further.calls steady_further room callee)
      (harguments.further'.calls steady_further room' callee)
      (fun _ => calls_of_end arguments room callee)
      (fun _ => calls_of_end arguments' room' callee)
  induction n generalizing room room' callee with
  | zero => exact hend 0 room room' callee (Nat.zero_le 1)
  | succ n ih =>
    by_cases hn : n = 0
    · exact hend (n + 1) room room' callee (by omega)
    · obtain ⟨room, rfl⟩ : ∃ r, room = r + 1 := ⟨room - 1, by omega⟩
      obtain ⟨room', rfl⟩ : ∃ r, room' = r + 1 := ⟨room' - 1, by omega⟩
      have hless := harguments.of_le (Nat.sub_le n 1)
      rw [Reading.calls, Reading.calls]
      refine Local.take (local_pure callee) (harguments.bind fun es =>
        (local_expect _ _).bind fun paren => ?_)
      exact ih hless (by omega) (by omega) (.call callee paren es)

/-- The sign of an assignment stands in front of what comes behind it. -/
theorem local_assignTo (target : Expr) (equals : Token) (behind : List Token) (value : Expr) :
    Local n rest before (assignTo target equals behind value)
      (assignTo target equals (behind ++ rest) value) where
  further := keeps_assignTo steady_further target equals behind value
  further' := keeps_assignTo steady_further target equals (behind ++ rest) value
  run c _ _ := by
    left
    have hnoted := Cursor.placed_noteAt rest before c equals behind .invalidTarget
    cases target <;> first | rfl | exact congrArg (EStateM.Result.ok _) hnoted.symm

theorem Local.assigned {value value' : Reading Expr} (hvalue : Local n rest before value value')
    (target : Expr) (equals : Token) :
    Local n rest before (assigned target equals value) (assigned target equals value') := by
  have hrest (behind : List Token) : Local n rest before
      (value >>= assignTo target equals behind)
      (value' >>= assignTo target equals (behind ++ rest)) :=
    hvalue.bind fun e => local_assignTo target equals behind e
  exact {
    further := fun c => (hrest c.ahead).further c
    further' := fun c => hvalue.further'.bind steady_further
      (fun e => keeps_assignTo steady_further target equals c.ahead e) c
    run := fun c => (hrest c.ahead).run c }

/-- Behind a token, a reading has one token fewer of its own. -/
theorem congruence_local : Congruence (fun _ m m' => Local n rest before m m')
    (fun _ _ m m' => Local (n - 1) rest before m m') where
  pure a := local_pure a
  tooDeep := local_throw _
  bind hm hf := hm.bind hf
  sees kind := local_sees kind
  accept hnone hsome := Local.accept hnone hsome
  refuse cause := local_refuse cause
  behind _ h := h.of_le (Nat.sub_le _ 1)

theorem local_expression {room room' : Nat} (hroom : n ≤ room + 1)
    (hroom' : n + rest.length ≤ room' + 1) (depth : Nat) :
    Local n rest before (expression room depth) (expression room' depth) := by
  refine (congruence_local.expressions room room' ?_ ?_ ?_ depth).1
  · intro operand operand' hoperand level left
    exact hoperand.chain level hroom hroom' left
  · intro value value' hvalue callee
    have harguments : Local (n - 1) rest before (listed value .tooManyArguments room)
        (listed value' .tooManyArguments room') :=
      (hvalue.of_le (Nat.sub_le n 1)).listed _ (by omega) (by omega)
    exact harguments.calls hroom hroom' callee
  · intro value value' hvalue target equals
    exact (hvalue.of_le (Nat.sub_le n 1)).assigned target equals

/-! ## Recovery -/

/-- Recovery ends in front of one of its own tokens, or of the mark. -/
theorem settle_append {us rest : List Token} {last : Token}
    (h : Ends rest ∨ Cursor.settle last us ≠ []) :
    Cursor.settle last (us ++ rest) = Cursor.settle last us ++ rest := by
  induction us generalizing last with
  | nil =>
    have hrest : Ends rest := h.resolve_right (absurd rfl)
    cases rest with
    | nil => rfl
    | cons t rest => simp [Cursor.settle, ends_cons.1 hrest]
  | cons t us ih =>
    rw [Cursor.settle] at h ⊢
    rw [List.cons_append, Cursor.settle]
    split
    · rfl
    · rename_i hgo
      rw [if_neg hgo] at h
      exact ih h

/-- Where recovery finds no boundary among its own tokens, it comes to those
behind. -/
theorem length_settle_append_le {us : List Token} {last : Token}
    (h : Cursor.settle last us = []) (rest : List Token) :
    (Cursor.settle last (us ++ rest)).length ≤ rest.length := by
  induction us generalizing last with
  | nil => exact length_settle_le last rest
  | cons t us ih =>
    rw [Cursor.settle] at h
    rw [List.cons_append, Cursor.settle]
    split at h
    · exact absurd h (List.cons_ne_nil t us)
    · rename_i hgo
      rw [if_neg hgo]
      exact ih h

theorem skipToBoundary_placed (c : Cursor) (h : ¬ Short rest c) :
    (c.placed rest before).skipToBoundary = c.skipToBoundary.placed rest before ∨
      Overran rest c.skipToBoundary (c.placed rest before).skipToBoundary := by
  by_cases hend : Ends c.ahead
  · left
    rw [skipToBoundary_of_ends hend, skipToBoundary_of_ends ((ends_placed h).2 hend)]
  · obtain ⟨ahead, faults, opens⟩ := c
    cases ahead with
    | nil => exact absurd ends_nil hend
    | cons t us =>
      have hmark : t.kind ≠ .endOfInput := fun hmark => hend (ends_cons.2 hmark)
      have hplaced : Cursor.skipToBoundary (Cursor.placed rest before ⟨t :: us, faults, opens⟩) =
          ⟨Cursor.settle t (us ++ rest), before ++ faults.map (Fault.pushed rest), opens⟩ :=
        skipToBoundary_cons hmark ..
      rw [skipToBoundary_cons hmark, hplaced]
      by_cases hfound : Ends rest ∨ Cursor.settle t us ≠ []
      · left
        rw [settle_append hfound]
        rfl
      · obtain ⟨hrest, hnone⟩ := not_or.1 hfound
        have hnone : Cursor.settle t us = [] := Classical.not_not.1 hnone
        exact .inr ⟨⟨hnone, hrest⟩, length_settle_append_le hnone rest⟩

/-- The reading of one declaration with recovery, in two places. -/
structure LocalItem (n : Nat) (rest : List Token) (before : Array Fault)
    (item item' : Cursor → Option Stmt × Cursor) : Prop where
  further : KeepsItem Further item
  further' : KeepsItem Further item'
  run (c : Cursor) : c.ahead.length < n → ¬ Short rest c →
    item' (c.placed rest before) = ((item c).1, (item c).2.placed rest before) ∨
      Overran rest (item c).2 (item' (c.placed rest before)).2

theorem LocalItem.of_le {item item' : Cursor → Option Stmt × Cursor}
    (h : LocalItem n rest before item item') {k : Nat} (hle : k ≤ n) :
    LocalItem k rest before item item' where
  further := h.further
  further' := h.further'
  run c hlength := h.run c (Nat.lt_of_lt_of_le hlength hle)

/-- Recovery goes on from where the reading was left. -/
theorem further_recovering (m : Reading Stmt) (c : Cursor) :
    Further (final (m c)) (recovering m c).2 := by
  unfold recovering
  split
  · rename_i hrun
    rw [hrun]
    exact steady_further.refl _
  · rename_i hrun
    rw [hrun]
    exact steady_further.skipToBoundary _
  · rename_i hrun
    rw [hrun]
    exact steady_further.trans (steady_further.note_cursor _ _) (steady_further.skipToBoundary _)

theorem Local.recovering {m m' : Reading Stmt} (hm : Local n rest before m m') :
    LocalItem n rest before (recovering m) (recovering m') where
  further := hm.further.recovering steady_further
  further' := hm.further'.recovering steady_further
  run := by
    intro c hlength hshort
    rcases hm.run c hlength hshort with hsame | hover
    · cases hrun : m c with
      | ok s c₁ =>
        rw [hrun] at hsame
        left
        rw [Reading.recovering, Reading.recovering, hsame, hrun]
        rfl
      | error e c₁ =>
        by_cases hend : Short rest c₁
        · -- abandoned at the end of its own tokens
          right
          have hstart : Overran rest (final (m c)) (final (m' (c.placed rest before))) := by
            rw [hsame, hrun]
            exact hend.overran before
          exact hstart.further (further_recovering m c) (further_recovering m' _)
        · rw [hrun] at hsame
          cases e with
          | fault =>
            rw [Reading.recovering, Reading.recovering, hsame, hrun]
            rcases skipToBoundary_placed c₁ hend with heq | hover
            · exact .inl (congrArg (Prod.mk none) heq)
            · exact .inr hover
          | tooDeep =>
            have hnoted : (c₁.placed rest before).note .nestingTooDeep =
                (c₁.note .nestingTooDeep).placed rest before :=
              (c₁.placed_note rest before _).symm
            have hend' : ¬ Short rest (c₁.note .nestingTooDeep) := by
              rw [Short, ahead_noted]
              exact hend
            rw [Reading.recovering, Reading.recovering, hsame, hrun]
            simp only [placed, hnoted]
            rcases skipToBoundary_placed (c₁.note .nestingTooDeep) hend' with heq | hover
            · exact .inl (congrArg (Prod.mk none) heq)
            · exact .inr hover
    · exact .inr (hover.further (further_recovering m c) (further_recovering m' _))

/-! ## Declarations in a row -/

/-- A row of declarations stops by what its next token is. -/
structure StopsLocally (rest : List Token) (before : Array Fault) (stop : Cursor → Bool) :
    Prop where
  atEnd (c : Cursor) : c.atEnd = true → stop c = true
  placed (c : Cursor) : ¬ Short rest c → stop (c.placed rest before) = stop c

theorem stopsLocally_atEnd : StopsLocally rest before Cursor.atEnd where
  atEnd _ h := h
  placed _ h := atEnd_placed h

theorem stopsLocally_closesBlock : StopsLocally rest before closesBlock where
  atEnd c h := by rw [closesBlock, h, Bool.true_or]
  placed c h := by
    rw [closesBlock, closesBlock, atEnd_placed h]
    cases hend : c.atEnd with
    | true => rfl
    | false => rw [kind?_placed hend]

/-- Reading one declaration takes a token, if it does not start at the end of
input. -/
def Advances (item : Cursor → Option Stmt × Cursor) : Prop :=
  ∀ c : Cursor, c.atEnd = false → (item c).2.ahead.length < c.ahead.length

theorem advances_declaration (room depth : Nat) : Advances (declaration room depth) :=
  fun _ => length_declaration_lt room depth

/-- **A row of declarations goes the same way in both places**, since each of
them takes a token. -/
theorem LocalItem.declarations {item item' : Cursor → Option Stmt × Cursor}
    {stop : Cursor → Bool} (hitem : LocalItem n rest before item item') (hadvances : Advances item)
    (hstop : StopsLocally rest before stop) {room room' : Nat} (hroom : n ≤ room + 1)
    (hroom' : n + rest.length ≤ room' + 1) (done : List Stmt) (c : Cursor)
    (hlength : c.ahead.length < n) (hshort : ¬ Short rest c) :
    Reading.declarations stop item' room' done (c.placed rest before) =
        ((Reading.declarations stop item room done c).1,
          (Reading.declarations stop item room done c).2.placed rest before) ∨
      Overran rest (Reading.declarations stop item room done c).2
        (Reading.declarations stop item' room' done (c.placed rest before)).2 := by
  induction n generalizing room room' done c with
  | zero => exact absurd hlength (Nat.not_lt_zero _)
  | succ n ih =>
    by_cases hstops : stop c = true
    · have hstops' : stop (c.placed rest before) = true := (hstop.placed c hshort).trans hstops
      left
      rw [declarations_of_stop hstops, declarations_of_stop hstops']
    · have hgo : stop c = false := eq_false_of_ne_true hstops
      have hgo' : stop (c.placed rest before) = false := (hstop.placed c hshort).trans hgo
      have hstart : c.atEnd = false := eq_false_of_ne_true fun hend => hstops (hstop.atEnd c hend)
      have hnext : (item c).2.ahead.length < c.ahead.length := hadvances c hstart
      obtain ⟨room, rfl⟩ : ∃ r, room = r + 1 := ⟨room - 1, by omega⟩
      obtain ⟨room', rfl⟩ : ∃ r, room' = r + 1 := ⟨room' - 1, by omega⟩
      rw [declarations_of_go hgo, declarations_of_go hgo']
      have hmore (done : List Stmt) (c : Cursor) :
          Further c (Reading.declarations stop item room done c).2 :=
        hitem.further.declarations steady_further stop room done c
      have hmore' (done : List Stmt) (c : Cursor) :
          Further c (Reading.declarations stop item' room' done c).2 :=
        hitem.further'.declarations steady_further stop room' done c
      rcases hitem.run c hlength hshort with hsame | hover
      · rw [hsame]
        by_cases hend : Short rest (item c).2
        · exact .inr ((hend.overran before).further (hmore _ _) (hmore' _ _))
        · exact ih (hitem.of_le (Nat.le_succ n)) (by omega) (by omega) _ _ (by omega) hend
      · exact .inr (hover.further (hmore _ _) (hmore' _ _))

theorem LocalItem.block {item item' : Cursor → Option Stmt × Cursor}
    (hitem : LocalItem n rest before item item') (hadvances : Advances item)
    {room room' : Nat} (hroom : n ≤ room + 1) (hroom' : n + rest.length ≤ room' + 1) :
    Local n rest before (block item room) (block item' room') := by
  have hbody : Local n rest before (body item room) (body item' room') := {
    further := further_body hitem.further room
    further' := further_body hitem.further' room'
    run := by
      intro c hlength hshort
      rcases hitem.declarations hadvances stopsLocally_closesBlock hroom hroom' [] c hlength
        hshort with hsame | hover
      · left
        rw [body, body, hsame]
        rfl
      · exact .inr hover }
  rw [block_eq, block_eq]
  exact hbody.bind fun statements => (local_expect _ _).bind fun _ => local_pure statements

/-! ## Statements -/

theorem Local.functionDeclaration {body body' : Reading (List Stmt)}
    (hbody : Local n rest before body body') {room room' : Nat} (hroom : n ≤ room)
    (hroom' : 0 < n → n + rest.length ≤ room') :
    Local n rest before (functionDeclaration body room) (functionDeclaration body' room') :=
  (local_expect _ _).bind fun _ => (local_expect _ _).bind fun _ =>
    ((local_expect _ _).listed _ hroom hroom').bind fun _ => (local_expect _ _).bind fun _ =>
      (local_expect _ _).bind fun _ => hbody.withinFunction.bind fun _ => local_pure _

theorem local_checkReturn (keyword : Token) :
    Local n rest before (checkReturn keyword) (checkReturn keyword) where
  further := keeps_checkReturn steady_further keyword
  further' := keeps_checkReturn steady_further keyword
  run c _ _ := by
    left
    rw [checkReturn, checkReturn, Cursor.openFunctions_placed]
    split
    · exact congrArg (EStateM.Result.ok ())
        (Cursor.placed_noteAt rest before c keyword c.ahead .returnOutsideFunction).symm
    · rfl

theorem Local.returnStatement {value value' : Reading Expr}
    (hvalue : Local n rest before value value') (keyword : Token) :
    Local n rest before (returnStatement keyword value) (returnStatement keyword value') := by
  rw [returnStatement_eq, returnStatement_eq]
  exact (local_checkReturn keyword).bind fun _ =>
    (congruence_local.unlessSeen hvalue _).bind fun _ => (local_expect _ _).bind fun _ =>
      local_pure _

/-- **Reading a declaration is local.** -/
theorem local_attempt {room room' : Nat} (hroom : n ≤ room + 1)
    (hroom' : n + rest.length ≤ room' + 1) (depth : Nat) :
    Local n rest before (attempt room depth) (attempt room' depth) := by
  refine (congruence_local.statements room room' ?_ ?_ ?_ ?_ depth).1
  · exact fun depth => local_expression hroom hroom' depth
  · intro body body' hbody _
    exact (hbody.of_le (Nat.sub_le n 1)).functionDeclaration (by omega) (by omega)
  · intro value value' hvalue keyword
    exact (hvalue.of_le (Nat.sub_le n 1)).returnStatement keyword
  · intro depth hattempt
    have hitem : LocalItem n rest before (declaration room depth) (declaration room' depth) := by
      rw [declaration_eq, declaration_eq]
      exact hattempt.recovering
    exact hitem.block (advances_declaration room depth) hroom hroom'

theorem local_declaration {room room' : Nat} (hroom : n ≤ room + 1)
    (hroom' : n + rest.length ≤ room' + 1) (depth : Nat) :
    LocalItem n rest before (declaration room depth) (declaration room' depth) := by
  rw [declaration_eq, declaration_eq]
  exact (local_attempt hroom hroom' depth).recovering

/-! ## Rounds, faults before, and tokens behind -/

theorem not_short_of_ends (h : Ends rest) (c : Cursor) : ¬ Short rest c := fun hshort => hshort.2 h

/-- **The mark ends a row of declarations**, as the end of the list does. Faults
noted before, and the bound on the rounds, change nothing in what it yields. -/
theorem declarations_placed {room room' : Nat} (depth : Nat) (hrest : Ends rest)
    (before : Array Fault) (done : List Stmt) (c : Cursor) (hroom : c.ahead.length ≤ room)
    (hroom' : c.ahead.length + rest.length ≤ room') :
    declarations Cursor.atEnd (declaration room' depth) room' done (c.placed rest before) =
      ((declarations Cursor.atEnd (declaration room depth) room done c).1,
        (declarations Cursor.atEnd (declaration room depth) room done c).2.placed rest
          before) := by
  have hrounds : c.ahead.length + 1 ≤ room + 1 := Nat.succ_le_succ hroom
  have hrounds' : c.ahead.length + 1 + rest.length ≤ room' + 1 := by omega
  have hitem : LocalItem (c.ahead.length + 1) rest before (declaration room depth)
      (declaration room' depth) :=
    local_declaration hrounds hrounds' depth
  rcases hitem.declarations (advances_declaration room depth) stopsLocally_atEnd hrounds hrounds'
    done c (Nat.lt_succ_self _) (not_short_of_ends hrest c) with hsame | hover
  · exact hsame
  · exact absurd hover.1 (not_short_of_ends hrest _)

/-- **With a round for every token, reading a program comes to its end**, also
in front of the mark, and faults noted before stay in front of its own. -/
theorem finishes_readAll_placed (depth : Nat) (ts : List Token) (hrest : Ends rest)
    (before : Array Fault) {room : Nat} (hroom : ts.length + rest.length ≤ room) :
    Finishes Cursor.atEnd (declaration room depth) ⟨ts ++ rest, before, 0⟩ (readAll depth ts).1
      ((readAll depth ts).2.placed rest before) := by
  have hstart : Cursor.placed rest before { ahead := ts } = ⟨ts ++ rest, before, 0⟩ := by
    simp [Cursor.placed]
  have hrow := declarations_placed depth hrest before [] { ahead := ts } (Nat.le_refl ts.length)
    hroom
  have hfinishes : Finishes Cursor.atEnd (declaration room depth) ⟨ts ++ rest, before, 0⟩
      (declarations Cursor.atEnd (declaration room depth) room [] ⟨ts ++ rest, before, 0⟩).1
      (declarations Cursor.atEnd (declaration room depth) room [] ⟨ts ++ rest, before, 0⟩).2 :=
    finishes_declarations (fun _ => atEnd_of_nil) (advances_declaration room depth) room
      (by rwa [List.length_append])
  rw [hstart] at hrow
  rw [hrow] at hfinishes
  exact hfinishes

theorem finishes_readAll (depth : Nat) (ts : List Token) (before : Array Fault) {room : Nat}
    (hroom : ts.length ≤ room) :
    Finishes Cursor.atEnd (declaration room depth) ⟨ts, before, 0⟩ (readAll depth ts).1
      ((readAll depth ts).2.placed [] before) := by
  have hfinishes := finishes_readAll_placed depth ts ends_nil before hroom
  rwa [List.append_nil] at hfinishes

end Reading

end Treewalk
