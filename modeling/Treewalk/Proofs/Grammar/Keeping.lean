import Treewalk.Proofs.Grammar.Congruence

/-!
# What every reading keeps

`Keeps R` says that a reading, however it ends, relates the cursor it is
given to the one it leaves behind. A relation that the small steps respect
(`Steady`) is kept by every reading of expressions, statements and
declarations, for all such relations at once. That faults are only ever added
is one of them.
-/

namespace Treewalk

namespace Reading

variable {α β : Type}

/-- The cursor that a reading leaves behind. -/
def final : EStateM.Result Abandoned Cursor α → Cursor
  | .ok _ c => c
  | .error _ c => c

/-- A reading relates the cursor it is given to the one it leaves behind. -/
def Keeps (R : Cursor → Cursor → Prop) (m : Reading α) : Prop := ∀ c, R c (final (m c))

/-- The reading of one declaration keeps a relation, whether it yields one
or not. -/
def KeepsItem (R : Cursor → Cursor → Prop) (item : Cursor → Option Stmt × Cursor) : Prop :=
  ∀ c, R c (item c).2

/-- A relation between cursors that every small step respects. -/
structure Steady (R : Cursor → Cursor → Prop) : Prop where
  refl (c : Cursor) : R c c
  trans {a b c : Cursor} : R a b → R b c → R a c
  /-- Reading a token. The mark at the end of input is never read. -/
  read {t : Token} (h : t.kind ≠ .endOfInput) (rest : List Token) (faults : Array Fault)
    (opens : Nat) : R ⟨t :: rest, faults, opens⟩ ⟨rest, faults, opens⟩
  /-- Noting a fault. -/
  note (c : Cursor) (f : Fault) : R c { c with faults := c.faults.push f }
  /-- Reading inside a function body. -/
  within {c c' : Cursor} : R { c with openFunctions := c.openFunctions + 1 } c' →
    R c { c' with openFunctions := c'.openFunctions - 1 }

section

variable {R : Cursor → Cursor → Prop} (hR : Steady R)
include hR

/-! ## Small steps and sequences -/

theorem keeps_pure (a : α) : Keeps R (pure a) := fun c => hR.refl c

theorem keeps_throw (e : Abandoned) : Keeps R (throw e : Reading α) := fun c => hR.refl c

theorem Keeps.bind {m : Reading α} {f : α → Reading β} (hm : Keeps R m)
    (hf : ∀ a, Keeps R (f a)) : Keeps R (m >>= f) := by
  intro c
  have hc := hm c
  cases h : m c with
  | ok a c₁ =>
    rw [h] at hc
    rw [bind_ok h]
    exact hR.trans hc (hf a c₁)
  | error e c₁ =>
    rw [h] at hc
    rw [bind_error h]
    exact hc

theorem Keeps.map {m : Reading α} (f : α → β) (hm : Keeps R m) : Keeps R (f <$> m) := by
  rw [map_eq_bind]
  exact hm.bind hR fun a => keeps_pure hR (f a)

theorem keeps_sees (kind : Kind) : Keeps R (sees kind) := fun c => hR.refl c

theorem keeps_accept (kinds : List Kind) : Keeps R (accept kinds) := by
  intro c
  rcases accept_cases kinds c with ⟨t, rest, -, hgo, hahead, hrun⟩ | ⟨-, hrun⟩
  · obtain ⟨ahead, faults, opens⟩ := c
    obtain rfl : ahead = t :: rest := hahead
    rw [hrun]
    exact hR.read hgo rest faults opens
  · rw [hrun]
    exact hR.refl c

theorem keeps_take (kind : Kind) : Keeps R (take kind) :=
  (keeps_accept hR [kind]).bind hR fun _ => keeps_pure hR _

theorem Steady.note_cursor (c : Cursor) (cause : GrammarFault) : R c (c.note cause) := by
  unfold Cursor.note
  split
  · exact hR.note _ _
  · exact hR.note _ _

theorem keeps_note (cause : GrammarFault) : Keeps R (note cause) := fun c => hR.note_cursor c cause

theorem keeps_refuse (cause : GrammarFault) : Keeps R (refuse cause : Reading α) :=
  fun c => hR.note_cursor c cause

theorem keeps_expect (kind : Kind) (cause : GrammarFault) : Keeps R (expect kind cause) := by
  refine (keeps_accept hR [kind]).bind hR fun t? => ?_
  cases t? with
  | some t => exact keeps_pure hR t
  | none => exact keeps_refuse hR cause

theorem Keeps.withinFunction {m : Reading α} (hm : Keeps R m) : Keeps R (withinFunction m) := by
  intro c
  have hc := hm { c with openFunctions := c.openFunctions + 1 }
  unfold Reading.withinFunction
  split
  · rename_i h
    rw [h] at hc
    exact hR.within hc
  · rename_i h
    rw [h] at hc
    exact hR.within hc

/-! ## Clauses and lists -/

theorem Keeps.ifTaken {clause : Reading α} (hclause : Keeps R clause) (kind : Kind) :
    Keeps R (ifTaken kind clause) := by
  refine (keeps_take hR kind).bind hR fun taken => ?_
  split
  · exact hclause.map hR some
  · exact keeps_pure hR none

theorem Keeps.unlessSeen {clause : Reading α} (hclause : Keeps R clause) (kind : Kind) :
    Keeps R (unlessSeen kind clause) := by
  refine (keeps_sees hR kind).bind hR fun seen => ?_
  split
  · exact keeps_pure hR none
  · exact hclause.map hR some

theorem keeps_noteOver (tooMany : GrammarFault) (count : Nat) :
    Keeps R (noteOver tooMany count) := by
  unfold noteOver
  split
  · exact keeps_note hR tooMany
  · exact keeps_pure hR ()

theorem Keeps.separated {item : Reading α} (hitem : Keeps R item) (tooMany : GrammarFault)
    (room count : Nat) : Keeps R (separated item tooMany room count) := by
  induction room generalizing count with
  | zero => exact keeps_pure hR _
  | succ room ih =>
    rw [separated_succ]
    exact (keeps_noteOver hR tooMany count).bind hR fun _ => hitem.bind hR fun first =>
      ((ih (count + 1)).ifTaken hR .comma).bind hR fun rest => keeps_pure hR _

theorem Keeps.listed {item : Reading α} (hitem : Keeps R item) (tooMany : GrammarFault)
    (room : Nat) : Keeps R (listed item tooMany room) := by
  refine (keeps_sees hR _).bind hR fun closed => ?_
  split
  · exact keeps_pure hR _
  · exact hitem.separated hR tooMany room 0

/-! ## Expressions -/

theorem Keeps.chain {operand : Reading Expr} (hoperand : Keeps R operand) (level : Level)
    (room : Nat) (left : Expr) : Keeps R (chain operand level room left) := by
  induction room generalizing left with
  | zero => exact keeps_pure hR left
  | succ room ih =>
    rw [Reading.chain]
    refine (keeps_accept hR _).bind hR fun t? => ?_
    cases t? with
    | none => exact keeps_pure hR left
    | some t => exact hoperand.bind hR fun right => ih _

theorem Keeps.calls {arguments : Reading (List Expr)} (harguments : Keeps R arguments)
    (room : Nat) (callee : Expr) : Keeps R (calls arguments room callee) := by
  induction room generalizing callee with
  | zero => exact keeps_pure hR callee
  | succ room ih =>
    rw [Reading.calls]
    refine (keeps_take hR _).bind hR fun taken => ?_
    split
    · exact harguments.bind hR fun _ => (keeps_expect hR _ _).bind hR fun _ => ih _
    · exact keeps_pure hR callee

theorem keeps_assignTo (target : Expr) (equals : Token) (rest : List Token) (value : Expr) :
    Keeps R (assignTo target equals rest value) := by
  intro c
  unfold assignTo
  split
  · exact hR.refl c
  · exact hR.note _ _

theorem congruence_keeps :
    Congruence (fun _ m _ => Keeps R m) (fun _ _ m _ => Keeps R m) where
  pure a := keeps_pure hR a
  tooDeep := keeps_throw hR _
  bind hm hf := hm.bind hR hf
  sees kind := keeps_sees hR kind
  accept hnone hsome := (keeps_accept hR _).bind hR fun t? => by
    cases t? with
    | none => exact hnone
    | some t => exact hsome t
  refuse cause := keeps_refuse hR cause
  behind _ h := h

/-- **Reading expressions keeps what the small steps keep.** -/
theorem keeps_expressions (room depth : Nat) : Keeps R (expression room depth) ∧
    (∀ ls, Keeps R (operation room depth ls)) ∧ Keeps R (unary room depth) := by
  refine (congruence_keeps hR).expressions room room ?_ ?_ ?_ depth
  · intro operand _ hoperand level left
    exact hoperand.chain hR level room left
  · intro value _ hvalue callee
    exact (hvalue.listed hR _ room).calls hR room callee
  · intro value _ hvalue target equals
    -- the cursor is only looked at, to know where the sign stands
    exact Keeps.bind hR (fun c => hR.refl c) fun c => hvalue.bind hR fun e =>
      keeps_assignTo hR target equals c.ahead e

/-! ## Statements -/

theorem keeps_settle (last : Token) (ahead : List Token) (faults : Array Fault) (opens : Nat) :
    R ⟨ahead, faults, opens⟩ ⟨Cursor.settle last ahead, faults, opens⟩ := by
  induction ahead generalizing last with
  | nil => exact hR.refl _
  | cons t rest ih =>
    rw [Cursor.settle]
    split
    · exact hR.refl _
    · rename_i hgo
      have hmark : t.kind ≠ .endOfInput := by
        intro hmark
        simp [hmark] at hgo
      exact hR.trans (hR.read hmark rest faults opens) (ih t)

theorem Steady.skipToBoundary (c : Cursor) : R c c.skipToBoundary := by
  obtain ⟨ahead, faults, opens⟩ := c
  cases ahead with
  | nil => exact hR.refl _
  | cons t rest =>
    by_cases hmark : t.kind = .endOfInput
    · rw [skipToBoundary_of_ends (ends_cons.2 hmark)]
      exact hR.refl _
    · rw [skipToBoundary_cons hmark]
      exact hR.trans (hR.read hmark rest faults opens) (keeps_settle hR t rest faults opens)

/-- Recovery is made of small steps too. -/
theorem Keeps.recovering {m : Reading Stmt} (hm : Keeps R m) : KeepsItem R (recovering m) := by
  intro c
  have hc := hm c
  unfold Reading.recovering
  split
  · rename_i h
    rw [h] at hc
    exact hc
  · rename_i h
    rw [h] at hc
    exact hR.trans hc (hR.skipToBoundary _)
  · rename_i h
    rw [h] at hc
    exact hR.trans (hR.trans hc (hR.note_cursor _ _)) (hR.skipToBoundary _)

theorem KeepsItem.declarations {item : Cursor → Option Stmt × Cursor} (hitem : KeepsItem R item)
    (stop : Cursor → Bool) (room : Nat) (done : List Stmt) (c : Cursor) :
    R c (declarations stop item room done c).2 := by
  induction room generalizing done c with
  | zero => exact hR.refl c
  | succ room ih =>
    rw [Reading.declarations]
    split
    · exact hR.refl c
    · exact hR.trans (hitem c) (ih _ _)

theorem KeepsItem.block {item : Cursor → Option Stmt × Cursor} (hitem : KeepsItem R item)
    (room : Nat) : Keeps R (block item room) := by
  have hbody : Keeps R (body item room) := fun c => hitem.declarations hR closesBlock room [] c
  rw [block_eq]
  exact hbody.bind hR fun _ => (keeps_expect hR _ _).bind hR fun _ => keeps_pure hR _

theorem Keeps.functionDeclaration {body : Reading (List Stmt)} (hbody : Keeps R body)
    (room : Nat) : Keeps R (functionDeclaration body room) :=
  (keeps_expect hR _ _).bind hR fun _ => (keeps_expect hR _ _).bind hR fun _ =>
    ((keeps_expect hR _ _).listed hR _ room).bind hR fun _ => (keeps_expect hR _ _).bind hR fun _ =>
      (keeps_expect hR _ _).bind hR fun _ => (hbody.withinFunction hR).bind hR fun _ =>
        keeps_pure hR _

theorem keeps_checkReturn (keyword : Token) : Keeps R (checkReturn keyword) := by
  intro c
  unfold checkReturn
  split
  · exact hR.note _ _
  · exact hR.refl c

theorem Keeps.returnStatement {value : Reading Expr} (hvalue : Keeps R value) (keyword : Token) :
    Keeps R (returnStatement keyword value) := by
  rw [returnStatement_eq]
  exact (keeps_checkReturn hR keyword).bind hR fun _ => (hvalue.unlessSeen hR _).bind hR fun _ =>
    (keeps_expect hR _ _).bind hR fun _ => keeps_pure hR _

/-- **Reading statements keeps what the small steps keep.** -/
theorem keeps_statements (room depth : Nat) :
    Keeps R (attempt room depth) ∧ Keeps R (statement room depth) := by
  refine (congruence_keeps hR).statements room room ?_ ?_ ?_ ?_ depth
  · exact fun depth => (keeps_expressions hR room depth).1
  · exact fun hbody _ => hbody.functionDeclaration hR room
  · exact fun hvalue keyword => hvalue.returnStatement hR keyword
  · intro depth hattempt
    rw [declaration_eq]
    exact (hattempt.recovering hR).block hR room

end

/-! ## Faults are only ever added -/

/-- The faults of one cursor are the first of those of another. -/
def Extends (c c' : Cursor) : Prop := c.faults.toList <+: c'.faults.toList

theorem steady_extends : Steady Extends where
  refl _ := List.prefix_rfl
  trans := List.IsPrefix.trans
  read _ _ _ _ := List.prefix_rfl
  note c f := by
    simp only [Extends, Array.toList_push]
    exact List.prefix_append _ _
  within h := h

/-- Where no fault is added in the end, none is added on the way. -/
theorem Extends.faults_eq {a b c : Cursor} (hab : Extends a b) (hbc : Extends b c)
    (h : c.faults = a.faults) : b.faults = a.faults ∧ c.faults = b.faults := by
  have hba : b.faults.toList <+: a.faults.toList := by
    have hbc : b.faults.toList <+: c.faults.toList := hbc
    rwa [h] at hbc
  -- each is the start of the other
  have heq : b.faults = a.faults := by
    rw [← Array.toList_inj]
    exact (hba.eq_of_length_le hab.length_le)
  exact ⟨heq, h.trans heq.symm⟩

end Reading

end Treewalk
