import Treewalk.Proofs.Grammar.Keeping
import Treewalk.Proofs.Tree.Likeness

/-!
# Reading other tokens, and reading deeper

Two readings of token lists that differ in lexemes and lines only go the
same way: the second ends as the first does, with the tokens of its trees
and faults changed in the same way. The second reading may also be allowed a
greater depth, as long as the first does not run out of its own. Both facts
are one induction on the depth of the first reading.
-/

namespace Treewalk

/-- A change of tokens that a reader does not notice. -/
structure Faithful (f : Token → Token) : Prop where
  kind (t : Token) : (f t).kind = t.kind
  literal (t : Token) : (f t).literal = t.literal

/-- The fault with its token changed. -/
def Fault.relabel (f : Token → Token) (x : Fault) : Fault := { x with token := x.token.map f }

/-- The cursor with every token changed. -/
def Cursor.relabel (f : Token → Token) (c : Cursor) : Cursor :=
  ⟨c.ahead.map f, c.faults.map (Fault.relabel f), c.openFunctions⟩

namespace Reading

variable {α β : Type}

/-- The outcome with its result and every token of its cursor changed. -/
def relabel (f : Token → Token) (g : α → β) :
    EStateM.Result Abandoned Cursor α → EStateM.Result Abandoned Cursor β
  | .ok a c => .ok (g a) (c.relabel f)
  | .error e c => .error e (c.relabel f)

/-- A declaration was given up because it nests too deep. -/
def Overrun (c : Cursor) : Prop := ∃ f ∈ c.faults.toList, f.cause = .nestingTooDeep

/-- A reading that ran out of depth, or in which a declaration did. -/
def Exhausted : EStateM.Result Abandoned Cursor α → Prop
  | .ok _ c => Overrun c
  | .error .fault c => Overrun c
  | .error .tooDeep _ => True

theorem Overrun.mono {c c' : Cursor} (h : Overrun c) (hext : Extends c c') : Overrun c' := by
  obtain ⟨f, hf, hcause⟩ := h
  exact ⟨f, hext.subset hf, hcause⟩

theorem Overrun.exhausted {c : Cursor} {r : EStateM.Result Abandoned Cursor α} (h : Overrun c)
    (hext : Extends c (final r)) : Exhausted r := by
  cases r with
  | ok a c' => exact h.mono hext
  | error e c' =>
    cases e with
    | fault => exact h.mono hext
    | tooDeep => trivial

/-- On changed tokens, `m'` goes as `m` does, unless `m` runs out of depth. -/
structure Tracks (f : Token → Token) (g : α → β) (m : Reading α) (m' : Reading β) : Prop where
  keeps : Keeps Extends m
  run (c : Cursor) : Exhausted (m c) ∨ m' (c.relabel f) = relabel f g (m c)

variable {f : Token → Token}

/-! ## Small steps and sequences -/

theorem tracks_pure (g : α → β) (a : α) : Tracks f g (pure a) (pure (g a)) where
  keeps := keeps_pure steady_extends a
  run _ := .inr rfl

/-- Out of depth, a reading tracks anything. -/
theorem tracks_tooDeep (g : α → β) (m' : Reading β) : Tracks f g (throw .tooDeep) m' where
  keeps := keeps_throw steady_extends _
  run _ := .inl trivial

theorem Tracks.bind {γ δ : Type} {g : α → β} {h : γ → δ} {m : Reading α} {m' : Reading β}
    {k : α → Reading γ} {k' : β → Reading δ} (hm : Tracks f g m m')
    (hk : ∀ a, Tracks f h (k a) (k' (g a))) : Tracks f h (m >>= k) (m' >>= k') where
  keeps := hm.keeps.bind steady_extends fun a => (hk a).keeps
  run := by
    intro c
    cases hrun : m c with
    | ok a c₁ =>
      rw [bind_ok hrun]
      rcases hm.run c with hdeep | hsame
      · -- the first step left a fault behind that no later step removes
        rw [hrun] at hdeep
        exact .inl (Overrun.exhausted hdeep ((hk a).keeps c₁))
      · rw [hrun] at hsame
        rw [bind_ok hsame]
        exact (hk a).run c₁
    | error e c₁ =>
      rw [bind_error hrun]
      rcases hm.run c with hdeep | hsame
      · rw [hrun] at hdeep
        left
        cases e <;> exact hdeep
      · rw [hrun] at hsame
        exact .inr (bind_error hsame)

theorem Tracks.map {γ δ : Type} {g : α → β} {h : γ → δ} {m : Reading α} {m' : Reading β}
    {k : α → γ} {k' : β → δ} (hm : Tracks f g m m') (hk : ∀ a, h (k a) = k' (g a)) :
    Tracks f h (k <$> m) (k' <$> m') := by
  rw [map_eq_bind, map_eq_bind]
  refine hm.bind fun a => ?_
  rw [← hk a]
  exact tracks_pure h (k a)

section

variable (hf : Faithful f)
include hf

theorem kind?_relabel (c : Cursor) : (c.relabel f).kind? = c.kind? := by
  obtain ⟨ahead, faults, opens⟩ := c
  cases ahead with
  | nil => rfl
  | cons t rest => exact congrArg some (hf.kind t)

theorem atEnd_relabel (c : Cursor) : (c.relabel f).atEnd = c.atEnd := by
  obtain ⟨ahead, faults, opens⟩ := c
  cases ahead with
  | nil => rfl
  | cons t rest => exact congrArg (· == Kind.endOfInput) (hf.kind t)

theorem tracks_sees (kind : Kind) : Tracks f id (sees kind) (sees kind) where
  keeps := keeps_sees steady_extends kind
  run c := by
    right
    rw [sees_apply, sees_apply, atEnd_relabel hf, kind?_relabel hf]
    rfl

theorem tracks_accept (kinds : List Kind) :
    Tracks f (Option.map f) (accept kinds) (accept kinds) where
  keeps := keeps_accept steady_extends kinds
  run c := by
    right
    obtain ⟨ahead, faults, opens⟩ := c
    cases ahead with
    | nil => rfl
    | cons t rest =>
      by_cases htaken : t.kind ≠ .endOfInput ∧ t.kind ∈ kinds <;>
        simp [accept, relabel, Cursor.relabel, hf.kind, htaken]

theorem tracks_take (kind : Kind) : Tracks f id (take kind) (take kind) := by
  refine (tracks_accept hf [kind]).bind fun t? => ?_
  cases t? <;> exact tracks_pure id _

omit hf in
theorem relabel_noteAt (c : Cursor) (t : Token) (rest : List Token) (cause : GrammarFault) :
    (c.noteAt t rest cause).relabel f = (c.relabel f).noteAt (f t) (rest.map f) cause := by
  simp [Cursor.relabel, Cursor.noteAt, Fault.relabel]

omit hf in
theorem relabel_note (c : Cursor) (cause : GrammarFault) :
    (c.note cause).relabel f = (c.relabel f).note cause := by
  obtain ⟨ahead, faults, opens⟩ := c
  cases ahead with
  | nil => simp [Cursor.relabel, Cursor.note, Fault.relabel]
  | cons t rest => exact relabel_noteAt _ t rest cause

omit hf in
theorem tracks_note (cause : GrammarFault) : Tracks f id (note cause) (note cause) where
  keeps := keeps_note steady_extends cause
  run c := by
    right
    rw [note, note, ← relabel_note]
    rfl

omit hf in
theorem tracks_refuse (g : α → β) (cause : GrammarFault) :
    Tracks f g (refuse cause) (refuse cause) where
  keeps := keeps_refuse steady_extends cause
  run c := by
    right
    rw [refuse, refuse, ← relabel_note]
    rfl

theorem tracks_expect (kind : Kind) (cause : GrammarFault) :
    Tracks f f (expect kind cause) (expect kind cause) := by
  refine (tracks_accept hf [kind]).bind fun t? => ?_
  cases t? with
  | some t => exact tracks_pure f t
  | none => exact tracks_refuse f cause

omit hf in
theorem Tracks.withinFunction {g : α → β} {m : Reading α} {m' : Reading β} (hm : Tracks f g m m') :
    Tracks f g (withinFunction m) (withinFunction m') where
  keeps := hm.keeps.withinFunction steady_extends
  run c := by
    have hrun := hm.run { c with openFunctions := c.openFunctions + 1 }
    unfold Reading.withinFunction
    cases h : m { c with openFunctions := c.openFunctions + 1 } with
    | ok a c₁ =>
      rw [h] at hrun
      refine hrun.imp_right fun hsame => ?_
      change m' { c.relabel f with openFunctions := c.openFunctions + 1 } = _ at hsame
      simp only [Cursor.relabel] at hsame ⊢
      rw [hsame]
      rfl
    | error e c₁ =>
      rw [h] at hrun
      refine hrun.imp (fun hdeep => ?_) fun hsame => ?_
      · cases e <;> exact hdeep
      · change m' { c.relabel f with openFunctions := c.openFunctions + 1 } = _ at hsame
        simp only [Cursor.relabel] at hsame ⊢
        rw [hsame]
        rfl

/-! ## Clauses and lists -/

theorem Tracks.ifTaken {g : α → β} {m : Reading α} {m' : Reading β} (hm : Tracks f g m m')
    (kind : Kind) : Tracks f (Option.map g) (ifTaken kind m) (ifTaken kind m') := by
  refine (tracks_take hf kind).bind fun taken => ?_
  cases taken with
  | true => exact hm.map fun _ => rfl
  | false => exact tracks_pure (Option.map g) none

theorem Tracks.unlessSeen {g : α → β} {m : Reading α} {m' : Reading β} (hm : Tracks f g m m')
    (kind : Kind) : Tracks f (Option.map g) (unlessSeen kind m) (unlessSeen kind m') := by
  refine (tracks_sees hf kind).bind fun seen => ?_
  cases seen with
  | true => exact tracks_pure (Option.map g) none
  | false => exact hm.map fun _ => rfl

omit hf in
theorem tracks_noteOver (tooMany : GrammarFault) (count : Nat) :
    Tracks f id (noteOver tooMany count) (noteOver tooMany count) := by
  unfold noteOver
  split
  · exact tracks_note tooMany
  · exact tracks_pure id ()

theorem Tracks.separated {g : α → β} {item : Reading α} {item' : Reading β}
    (hitem : Tracks f g item item') (tooMany : GrammarFault) (room count : Nat) :
    Tracks f (List.map g) (separated item tooMany room count)
      (separated item' tooMany room count) := by
  induction room generalizing count with
  | zero => exact tracks_pure (List.map g) []
  | succ room ih =>
    rw [separated_succ, separated_succ]
    refine (tracks_noteOver tooMany count).bind fun _ => hitem.bind fun first =>
      ((ih (count + 1)).ifTaken hf .comma).bind fun rest => ?_
    cases rest with
    | none => exact tracks_pure (List.map g) [first]
    | some rest => exact tracks_pure (List.map g) (first :: rest)

theorem Tracks.listed {g : α → β} {item : Reading α} {item' : Reading β}
    (hitem : Tracks f g item item') (tooMany : GrammarFault) (room : Nat) :
    Tracks f (List.map g) (listed item tooMany room) (listed item' tooMany room) := by
  refine (tracks_sees hf .rightParen).bind fun seen => ?_
  cases seen with
  | true => exact tracks_pure (List.map g) []
  | false => exact hitem.separated hf tooMany room 0

/-! ## Expressions -/

/-- A level of operators whose trees keep the tokens they are given. -/
def Level.Plain (f : Token → Token) (level : Level) : Prop :=
  ∀ l o r, (level.node l o r).relabel f = level.node (l.relabel f) (f o) (r.relabel f)

omit hf in
theorem levels_plain : ∀ level ∈ levels, Level.Plain f level := by
  intro level hlevel l o r
  simp only [levels, List.mem_cons, List.not_mem_nil, or_false] at hlevel
  rcases hlevel with rfl | rfl | rfl | rfl | rfl | rfl <;> rfl

theorem Tracks.chain {operand operand' : Reading Expr}
    (hoperand : Tracks f (Expr.relabel f) operand operand') {level : Level}
    (hlevel : Level.Plain f level) (room : Nat) (left : Expr) :
    Tracks f (Expr.relabel f) (chain operand level room left)
      (chain operand' level room (left.relabel f)) := by
  induction room generalizing left with
  | zero => exact tracks_pure (Expr.relabel f) left
  | succ room ih =>
    rw [Reading.chain, Reading.chain]
    refine (tracks_accept hf level.operators).bind fun t? => ?_
    cases t? with
    | none => exact tracks_pure (Expr.relabel f) left
    | some operator =>
      refine hoperand.bind fun right => ?_
      rw [← hlevel left operator right]
      exact ih (level.node left operator right)

theorem Tracks.calls {arguments arguments' : Reading (List Expr)}
    (harguments : Tracks f (List.map (Expr.relabel f)) arguments arguments') (room : Nat)
    (callee : Expr) :
    Tracks f (Expr.relabel f) (calls arguments room callee)
      (calls arguments' room (callee.relabel f)) := by
  induction room generalizing callee with
  | zero => exact tracks_pure (Expr.relabel f) callee
  | succ room ih =>
    rw [Reading.calls, Reading.calls]
    refine (tracks_take hf .leftParen).bind fun taken => ?_
    cases taken with
    | false => exact tracks_pure (Expr.relabel f) callee
    | true =>
      refine harguments.bind fun es => (tracks_expect hf _ _).bind fun paren => ?_
      have h := ih (.call callee paren es)
      rwa [Expr.relabel, Expr.relabelAll_eq_map] at h

theorem Tracks.primary {inner inner' : Reading Expr}
    (hinner : Tracks f (Expr.relabel f) inner inner') :
    Tracks f (Expr.relabel f) (primary inner) (primary inner') := by
  refine (tracks_accept hf primaryKinds).bind fun t? => ?_
  cases t? with
  | none => exact tracks_refuse _ _
  | some t =>
    simp only [Option.map_some, hf.kind, hf.literal]
    split
    case h_5 =>
      exact hinner.bind fun e => (tracks_expect hf _ _).bind fun _ =>
        tracks_pure (Expr.relabel f) (.grouping e)
    case h_4 => exact tracks_pure (Expr.relabel f) (.name t)
    all_goals exact tracks_pure (Expr.relabel f) (.literal _)

omit hf in
theorem tracks_assignTo (target : Expr) (equals : Token) (rest : List Token) (value : Expr) :
    Tracks f (Expr.relabel f) (assignTo target equals rest value)
      (assignTo (target.relabel f) (f equals) (rest.map f) (value.relabel f)) where
  keeps := keeps_assignTo steady_extends target equals rest value
  run c := by
    right
    -- whether the target is a name does not depend on its tokens
    cases target <;> first | rfl | exact congrArg (EStateM.Result.ok _) (relabel_noteAt ..).symm

/-- **Reading expressions deeper**, and from changed tokens. -/
theorem tracks_expressions (room : Nat) {depth depth' : Nat} (hle : depth ≤ depth') :
    Tracks f (Expr.relabel f) (expression room depth) (expression room depth') ∧
    (∀ ls : List Level, (∀ level ∈ ls, Level.Plain f level) →
      Tracks f (Expr.relabel f) (operation room depth ls) (operation room depth' ls)) ∧
    Tracks f (Expr.relabel f) (unary room depth) (unary room depth') := by
  induction depth generalizing depth' with
  | zero =>
    refine ⟨tracks_tooDeep _ _, fun ls _ => ?_, tracks_tooDeep _ _⟩
    cases ls <;> exact tracks_tooDeep _ _
  | succ depth ih =>
    -- the second reading has a step to spare too, so both unfold alike
    obtain ⟨depth', rfl⟩ : ∃ d, depth' = d + 1 := ⟨depth' - 1, by omega⟩
    obtain ⟨hexpression, hoperation, hunary⟩ := ih (Nat.le_of_succ_le_succ hle)
    refine ⟨?_, fun ls hls => ?_, ?_⟩
    · have hget : Tracks f (Cursor.relabel f) get get :=
        ⟨fun c => steady_extends.refl c, fun _ => .inr rfl⟩
      rw [expression, expression]
      refine (hoperation levels levels_plain).bind fun target =>
        (tracks_accept hf [.equal]).bind fun t? => ?_
      cases t? with
      | none => exact tracks_pure (Expr.relabel f) target
      | some equals =>
        exact hget.bind fun c => hexpression.bind fun value =>
          tracks_assignTo target equals c.ahead value
    · cases ls with
      | nil => exact hunary
      | cons level tighter =>
        have htighter := hoperation tighter fun l hl => hls l (by simp [hl])
        rw [operation, operation]
        exact htighter.bind fun left => htighter.chain hf (hls level (by simp)) room left
    · rw [unary, unary]
      refine (tracks_accept hf [.bang, .minus]).bind fun t? => ?_
      cases t? with
      | some operator =>
        exact hunary.bind fun e => tracks_pure (Expr.relabel f) (.unary operator e)
      | none =>
        exact (hexpression.primary hf).bind fun callee =>
          (hexpression.listed hf _ room).calls hf room callee

/-! ## Statements -/

/-- The next declaration is read alike, or the first reading ran out of
depth in it. -/
structure TracksItem (f : Token → Token) (item item' : Cursor → Option Stmt × Cursor) : Prop where
  keeps : KeepsItem Extends item
  run (c : Cursor) : Overrun (item c).2 ∨
    item' (c.relabel f) = ((item c).1.map (Stmt.relabel f), (item c).2.relabel f)

omit hf in
theorem overrun_note (c : Cursor) : Overrun (c.note .nestingTooDeep) := by
  unfold Cursor.note
  split <;> exact ⟨_, Array.mem_toList_iff.2 Array.mem_push_self, rfl⟩

theorem settle_map (last : Token) (ts : List Token) :
    Cursor.settle (f last) (ts.map f) = (Cursor.settle last ts).map f := by
  induction ts generalizing last with
  | nil => rfl
  | cons t rest ih =>
    rw [List.map_cons, Cursor.settle, Cursor.settle, hf.kind, hf.kind]
    split
    · rfl
    · exact ih t

theorem skipToBoundary_relabel (c : Cursor) :
    (c.relabel f).skipToBoundary = c.skipToBoundary.relabel f := by
  obtain ⟨ahead, faults, opens⟩ := c
  cases ahead with
  | nil => rfl
  | cons t rest =>
    by_cases hmark : t.kind = .endOfInput <;>
      simp [Cursor.skipToBoundary, Cursor.relabel, settle_map hf, hf.kind, hmark]

theorem Tracks.recovering {m m' : Reading Stmt} (hm : Tracks f (Stmt.relabel f) m m') :
    TracksItem f (recovering m) (recovering m') where
  keeps := hm.keeps.recovering steady_extends
  run c := by
    have hrun := hm.run c
    unfold Reading.recovering
    cases h : m c with
    | ok s c₁ =>
      rw [h] at hrun
      refine hrun.imp_right fun hsame => ?_
      rw [hsame]
      rfl
    | error e c₁ =>
      rw [h] at hrun
      cases e with
      | fault =>
        refine hrun.imp (fun hdeep => ?_) fun hsame => ?_
        · exact hdeep.mono (steady_extends.skipToBoundary c₁)
        · rw [hsame]
          simp only [relabel, skipToBoundary_relabel hf]
          rfl
      | tooDeep =>
        -- the second reading may well succeed here, but the first is overrun
        left
        exact (overrun_note c₁).mono (steady_extends.skipToBoundary _)

omit hf in
theorem TracksItem.declarations {item item' : Cursor → Option Stmt × Cursor}
    (hitem : TracksItem f item item') {stop : Cursor → Bool}
    (hstop : ∀ c : Cursor, stop (c.relabel f) = stop c) (room : Nat) (done : List Stmt)
    (c : Cursor) :
    Overrun (declarations stop item room done c).2 ∨
      declarations stop item' room (done.map (Stmt.relabel f)) (c.relabel f) =
        ((declarations stop item room done c).1.map (Stmt.relabel f),
          (declarations stop item room done c).2.relabel f) := by
  induction room generalizing done c with
  | zero => exact .inr (by simp [Reading.declarations])
  | succ room ih =>
    rw [Reading.declarations, Reading.declarations, hstop]
    split
    · exact .inr (by simp)
    · rcases hitem.run c with hdeep | hsame
      · exact .inl (hdeep.mono (hitem.keeps.declarations steady_extends stop room _ _))
      · have hrest := ih ((item c).1.toList ++ done) (item c).2
        rw [hsame]
        -- the declarations read so far are kept newest first on both sides
        have hdone : ((item c).1.map (Stmt.relabel f)).toList ++ done.map (Stmt.relabel f) =
            ((item c).1.toList ++ done).map (Stmt.relabel f) := by
          cases (item c).1 <;> rfl
        simp only [hdone]
        exact hrest

theorem TracksItem.block {item item' : Cursor → Option Stmt × Cursor}
    (hitem : TracksItem f item item') (room : Nat) :
    Tracks f (List.map (Stmt.relabel f)) (block item room) (block item' room) := by
  have hstop (c : Cursor) : closesBlock (c.relabel f) = closesBlock c := by
    rw [closesBlock, closesBlock, atEnd_relabel hf, kind?_relabel hf]
  have hbody : Tracks f (List.map (Stmt.relabel f)) (body item room) (body item' room) := by
    refine ⟨fun c => hitem.keeps.declarations steady_extends closesBlock room [] c, fun c => ?_⟩
    refine (hitem.declarations hstop room [] c).imp_right fun hsame => ?_
    rw [List.map_nil] at hsame
    rw [body, hsame]
    rfl
  rw [block_eq, block_eq]
  exact hbody.bind fun ss => (tracks_expect hf _ _).bind fun _ => tracks_pure _ ss

section Forms

variable {value value' : Reading Expr} {body body' : Reading Stmt}
variable (hvalue : Tracks f (Expr.relabel f) value value')
variable (hbody : Tracks f (Stmt.relabel f) body body')

include hvalue in
theorem Tracks.varDeclaration :
    Tracks f (Stmt.relabel f) (varDeclaration value) (varDeclaration value') := by
  rw [varDeclaration_eq, varDeclaration_eq]
  refine (tracks_expect hf _ _).bind fun name => (hvalue.ifTaken hf _).bind fun initial =>
    (tracks_expect hf _ _).bind fun _ => ?_
  cases initial <;> exact tracks_pure (Stmt.relabel f) (.var name _)

include hvalue in
theorem Tracks.expressionStatement :
    Tracks f (Stmt.relabel f) (expressionStatement value) (expressionStatement value') :=
  hvalue.bind fun e => (tracks_expect hf _ _).bind fun _ =>
    tracks_pure (Stmt.relabel f) (.expression e)

include hvalue hbody in
theorem Tracks.branchStatement :
    Tracks f (Stmt.relabel f) (branchStatement value body) (branchStatement value' body') := by
  rw [branchStatement_eq, branchStatement_eq]
  refine (tracks_expect hf _ _).bind fun _ => hvalue.bind fun condition =>
    (tracks_expect hf _ _).bind fun _ => hbody.bind fun yes =>
      (hbody.ifTaken hf _).bind fun no => ?_
  cases no <;> exact tracks_pure (Stmt.relabel f) (.branch condition yes _)

include hvalue hbody in
theorem Tracks.loopStatement :
    Tracks f (Stmt.relabel f) (loopStatement value body) (loopStatement value' body') :=
  (tracks_expect hf _ _).bind fun _ => hvalue.bind fun condition =>
    (tracks_expect hf _ _).bind fun _ => hbody.bind fun s =>
      tracks_pure (Stmt.relabel f) (.loop condition s)

include hvalue in
theorem Tracks.initialClause :
    Tracks f (Option.map (Stmt.relabel f)) (initialClause value) (initialClause value') := by
  refine (tracks_take hf _).bind fun closed => ?_
  cases closed with
  | true => exact tracks_pure (Option.map (Stmt.relabel f)) none
  | false =>
    refine (tracks_take hf _).bind fun var => ?_
    cases var with
    | true =>
      exact (hvalue.varDeclaration hf).bind fun s =>
        tracks_pure (Option.map (Stmt.relabel f)) (some s)
    | false =>
      exact (hvalue.expressionStatement hf).bind fun s =>
        tracks_pure (Option.map (Stmt.relabel f)) (some s)

omit hf in
theorem relabel_forLoop (initial : Option Stmt) (condition step : Option Expr) (s : Stmt) :
    (Stmt.forLoop initial condition step s).relabel f =
      Stmt.forLoop (initial.map (Stmt.relabel f)) (condition.map (Expr.relabel f))
        (step.map (Expr.relabel f)) (s.relabel f) := by
  cases initial <;> cases condition <;> cases step <;> rfl

include hvalue hbody in
theorem Tracks.forStatement :
    Tracks f (Stmt.relabel f) (forStatement value body) (forStatement value' body') := by
  rw [forStatement_eq, forStatement_eq]
  refine (tracks_expect hf _ _).bind fun _ => (hvalue.initialClause hf).bind fun initial =>
    (hvalue.unlessSeen hf _).bind fun condition => (tracks_expect hf _ _).bind fun _ =>
      (hvalue.unlessSeen hf _).bind fun step => (tracks_expect hf _ _).bind fun _ =>
        hbody.bind fun s => ?_
  rw [← relabel_forLoop]
  exact tracks_pure (Stmt.relabel f) _

include hvalue in
theorem Tracks.printStatement :
    Tracks f (Stmt.relabel f) (printStatement value) (printStatement value') :=
  hvalue.bind fun e => (tracks_expect hf _ _).bind fun _ =>
    tracks_pure (Stmt.relabel f) (.print e)

omit hf in
theorem tracks_checkReturn (keyword : Token) :
    Tracks f id (checkReturn keyword) (checkReturn (f keyword)) where
  keeps := keeps_checkReturn steady_extends keyword
  run c := by
    right
    by_cases h : c.openFunctions = 0
    · have h' : (c.relabel f).openFunctions = 0 := h
      rw [checkReturn, if_pos h', checkReturn, if_pos h, relabel, relabel_noteAt]
      rfl
    · have h' : (c.relabel f).openFunctions ≠ 0 := h
      rw [checkReturn, if_neg h', checkReturn, if_neg h]
      rfl

include hvalue in
theorem Tracks.returnStatement (keyword : Token) :
    Tracks f (Stmt.relabel f) (returnStatement keyword value)
      (returnStatement (f keyword) value') := by
  rw [returnStatement_eq, returnStatement_eq]
  refine (tracks_checkReturn keyword).bind fun _ => (hvalue.unlessSeen hf _).bind fun e =>
    (tracks_expect hf _ _).bind fun _ => ?_
  cases e <;> exact tracks_pure (Stmt.relabel f) (.ret keyword _)

end Forms

theorem Tracks.functionDeclaration {body body' : Reading (List Stmt)}
    (hbody : Tracks f (List.map (Stmt.relabel f)) body body') (room : Nat) :
    Tracks f (Stmt.relabel f) (functionDeclaration body room)
      (functionDeclaration body' room) := by
  refine (tracks_expect hf _ _).bind fun name => (tracks_expect hf _ _).bind fun _ =>
    ((tracks_expect hf _ _).listed hf _ room).bind fun params =>
      (tracks_expect hf _ _).bind fun _ => (tracks_expect hf _ _).bind fun _ =>
        hbody.withinFunction.bind fun ss => ?_
  rw [← Stmt.relabelAll_eq_map]
  exact tracks_pure (Stmt.relabel f) (.function name params ss)

/-- **Reading declarations and statements deeper**, and from changed
tokens. -/
theorem tracks_statements (room : Nat) {depth depth' : Nat} (hle : depth ≤ depth') :
    Tracks f (Stmt.relabel f) (attempt room depth) (attempt room depth') ∧
      Tracks f (Stmt.relabel f) (statement room depth) (statement room depth') := by
  induction depth generalizing depth' with
  | zero => exact ⟨tracks_tooDeep _ _, tracks_tooDeep _ _⟩
  | succ depth ih =>
    obtain ⟨depth', rfl⟩ : ∃ d, depth' = d + 1 := ⟨depth' - 1, by omega⟩
    have hle := Nat.le_of_succ_le_succ hle
    obtain ⟨hattempt, hstatement⟩ := ih hle
    have hvalue := (tracks_expressions hf room hle).1
    have hblock : Tracks f (List.map (Stmt.relabel f)) (block (declaration room depth) room)
        (block (declaration room depth') room) := by
      rw [declaration_eq, declaration_eq]
      exact (hattempt.recovering hf).block hf room
    constructor
    · rw [attempt, attempt]
      refine (tracks_take hf _).bind fun isFun => ?_
      cases isFun with
      | true => exact hblock.functionDeclaration hf room
      | false =>
        refine (tracks_take hf _).bind fun isVar => ?_
        cases isVar with
        | true => exact hvalue.varDeclaration hf
        | false => exact hstatement
    · rw [statement, statement]
      refine (tracks_accept hf _).bind fun t? => ?_
      cases t? with
      | none => exact hvalue.expressionStatement hf
      | some t =>
        simp only [Option.map_some, hf.kind]
        split
        · exact hvalue.branchStatement hf hstatement
        · exact hvalue.loopStatement hf hstatement
        · exact hvalue.forStatement hf hstatement
        · exact hvalue.printStatement hf
        · exact hvalue.returnStatement hf t
        · refine hblock.bind fun ss => ?_
          rw [← Stmt.relabelAll_eq_map]
          exact tracks_pure (Stmt.relabel f) (.block ss)

/-! ## Programs -/

/-- **A program read deeper, or from changed tokens**, is the program that
was read, with its tokens changed, unless its reading ran out of depth. -/
theorem readAll_map {depth depth' : Nat} (hle : depth ≤ depth') (ts : List Token)
    (h : ¬ Overrun (readAll depth ts).2) :
    readAll depth' (ts.map f) = ((readAll depth ts).1.map (Stmt.relabel f),
      (readAll depth ts).2.relabel f) := by
  have hitem : TracksItem f (declaration ts.length depth) (declaration ts.length depth') := by
    rw [declaration_eq, declaration_eq]
    exact (tracks_statements hf ts.length hle).1.recovering hf
  have hstart : Cursor.relabel f { ahead := ts } = { ahead := ts.map f } := by
    simp [Cursor.relabel]
  have hrun := (hitem.declarations (atEnd_relabel hf) ts.length [] { ahead := ts }).resolve_left h
  rw [hstart] at hrun
  rw [readAll, List.length_map]
  exact hrun

end

end Reading

end Treewalk
