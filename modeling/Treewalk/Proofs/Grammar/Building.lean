import Treewalk.Proofs.Grammar.Keeping

/-!
# What readings build

A property that passes from the parts of a tree to the whole (`Builds`)
holds of every tree that is ever read, also of those that are read between
faults. The reader puts nothing into a tree but tokens and the literals of
tokens; so the property may ask something of the tokens that are read.
-/

namespace Treewalk

namespace Reading

variable {α β : Type} {good : Token → Prop}

/-- Cursors with none but good tokens ahead. -/
def Ahead (good : Token → Prop) (c : Cursor) : Prop := ∀ t ∈ c.ahead, good t

/-- A reading that ended in front of good tokens, with a result of the given
kind if it has one. -/
inductive Made (good : Token → Prop) (P : α → Prop) : EStateM.Result Abandoned Cursor α → Prop
  | ok {a : α} {c : Cursor} : Ahead good c → P a → Made good P (.ok a c)
  | error {e : Abandoned} {c : Cursor} : Ahead good c → Made good P (.error e c)

/-- A reading of good tokens yields results of the given kind. -/
def Makes (good : Token → Prop) (P : α → Prop) (m : Reading α) : Prop :=
  ∀ c, Ahead good c → Made good P (m c)

/-- The reading of one declaration yields one of the given kind, or none. -/
def MakesItem (good : Token → Prop) (D : Stmt → Prop) (item : Cursor → Option Stmt × Cursor) :
    Prop :=
  ∀ c, Ahead good c → Ahead good (item c).2 ∧ ∀ s, (item c).1 = some s → D s

/-! ## Small steps and sequences -/

section

variable {P : α → Prop} {Q : β → Prop}

theorem makes_pure {a : α} (h : P a) : Makes good P (pure a) := fun _ hc => .ok hc h

theorem makes_throw (e : Abandoned) : Makes good P (throw e : Reading α) := fun _ hc => .error hc

theorem Makes.bind {m : Reading α} {f : α → Reading β} (hm : Makes good P m)
    (hf : ∀ a, P a → Makes good Q (f a)) : Makes good Q (m >>= f) := by
  intro c hc
  have hrun := hm c hc
  cases h : m c with
  | ok a c₁ =>
    rw [h] at hrun
    rw [bind_ok h]
    cases hrun with
    | ok hc₁ ha => exact hf a ha c₁ hc₁
  | error e c₁ =>
    rw [h] at hrun
    rw [bind_error h]
    cases hrun with
    | error hc₁ => exact .error hc₁

theorem Makes.mono {P' : α → Prop} {m : Reading α} (hm : Makes good P m)
    (h : ∀ a, P a → P' a) : Makes good P' m := by
  intro c hc
  have hrun := hm c hc
  generalize m c = r at hrun ⊢
  cases hrun with
  | ok hc' ha => exact .ok hc' (h _ ha)
  | error hc' => exact .error hc'

theorem Makes.some {m : Reading α} (hm : Makes good P m) :
    Makes good (fun a? : Option α => ∀ a ∈ a?, P a) (some <$> m) := by
  rw [map_eq_bind]
  exact hm.bind fun a ha => makes_pure fun b hb => Option.some.inj hb ▸ ha

theorem makes_sees (kind : Kind) : Makes good (fun _ => True) (sees kind) :=
  fun _ hc => .ok hc trivial

theorem makes_accept (kinds : List Kind) :
    Makes good (fun t? => ∀ t ∈ t?, good t) (accept kinds) := by
  intro c hc
  rcases accept_cases kinds c with ⟨t, rest, -, -, hahead, hrun⟩ | ⟨-, hrun⟩
  · rw [hrun]
    rw [Ahead, hahead] at hc
    obtain ⟨ht, hrest⟩ := List.forall_mem_cons.1 hc
    exact .ok hrest fun u hu => Option.some.inj hu ▸ ht
  · rw [hrun]
    exact .ok hc fun t ht => absurd ht (Option.not_mem_none t)

theorem makes_take (kind : Kind) : Makes good (fun _ => True) (take kind) :=
  (makes_accept [kind]).bind fun _ _ => makes_pure trivial

theorem ahead_note {c : Cursor} (hc : Ahead good c) (cause : GrammarFault) :
    Ahead good (c.note cause) := by
  unfold Cursor.note
  split
  · exact hc
  · exact hc

theorem makes_note (cause : GrammarFault) : Makes good (fun _ => True) (note cause) :=
  fun _ hc => .ok (ahead_note hc cause) trivial

theorem makes_refuse (cause : GrammarFault) : Makes good P (refuse cause : Reading α) :=
  fun _ hc => .error (ahead_note hc cause)

theorem makes_expect (kind : Kind) (cause : GrammarFault) :
    Makes good (fun _ => True) (expect kind cause) := by
  refine (makes_accept [kind]).bind fun t? _ => ?_
  cases t? with
  | some t => exact makes_pure trivial
  | none => exact makes_refuse cause

theorem Makes.withinFunction {m : Reading α} (hm : Makes good P m) :
    Makes good P (withinFunction m) := by
  intro c hc
  have hrun := hm { c with openFunctions := c.openFunctions + 1 } hc
  unfold Reading.withinFunction
  split
  · rename_i h
    rw [h] at hrun
    cases hrun with
    | ok hc' ha => exact .ok hc' ha
  · rename_i h
    rw [h] at hrun
    cases hrun with
    | error hc' => exact .error hc'

/-! ## Clauses and lists -/

theorem Makes.ifTaken {clause : Reading α} (hclause : Makes good P clause) (kind : Kind) :
    Makes good (fun a? => ∀ a ∈ a?, P a) (ifTaken kind clause) := by
  refine (makes_take kind).bind fun taken _ => ?_
  split
  · exact hclause.some
  · exact makes_pure nofun

theorem Makes.unlessSeen {clause : Reading α} (hclause : Makes good P clause) (kind : Kind) :
    Makes good (fun a? => ∀ a ∈ a?, P a) (unlessSeen kind clause) := by
  refine (makes_sees kind).bind fun seen _ => ?_
  split
  · exact makes_pure nofun
  · exact hclause.some

theorem makes_noteOver (tooMany : GrammarFault) (count : Nat) :
    Makes good (fun _ => True) (noteOver tooMany count) := by
  unfold noteOver
  split
  · exact makes_note tooMany
  · exact makes_pure trivial

theorem Makes.separated {item : Reading α} (hitem : Makes good P item) (tooMany : GrammarFault)
    (room count : Nat) :
    Makes good (fun as => ∀ a ∈ as, P a) (separated item tooMany room count) := by
  induction room generalizing count with
  | zero => exact makes_pure nofun
  | succ room ih =>
    rw [separated_succ]
    refine (makes_noteOver tooMany count).bind fun _ _ => hitem.bind fun first hfirst => ?_
    refine ((ih (count + 1)).ifTaken .comma).bind fun rest? hrest => makes_pure ?_
    refine List.forall_mem_cons.2 ⟨hfirst, ?_⟩
    cases rest? with
    | none => exact nofun
    | some rest => exact hrest rest rfl

theorem Makes.listed {item : Reading α} (hitem : Makes good P item) (tooMany : GrammarFault)
    (room : Nat) : Makes good (fun as => ∀ a ∈ as, P a) (listed item tooMany room) := by
  refine (makes_sees _).bind fun closed _ => ?_
  split
  · exact makes_pure nofun
  · exact hitem.separated tooMany room 0

end

/-! ## Declarations in a row -/

section

variable {D : Stmt → Prop}

theorem steady_ahead : Steady fun c c' => Ahead good c → Ahead good c' where
  refl _ hc := hc
  trans hab hbc hc := hbc (hab hc)
  read _ _ _ _ hc t ht := hc t (List.mem_cons_of_mem _ ht)
  note _ _ hc := hc
  within h := h

theorem ahead_skipToBoundary {c : Cursor} (hc : Ahead good c) : Ahead good c.skipToBoundary :=
  steady_ahead.skipToBoundary c hc

/-- Recovery yields nothing. -/
theorem Makes.recovering {m : Reading Stmt} (hm : Makes good D m) :
    MakesItem good D (recovering m) := by
  intro c hc
  have hrun := hm c hc
  unfold Reading.recovering
  generalize m c = r at hrun
  cases hrun with
  | ok hc' hs => exact ⟨hc', fun s h => Option.some.inj h ▸ hs⟩
  | @error e c' hc' =>
    cases e with
    | fault => exact ⟨ahead_skipToBoundary hc', nofun⟩
    | tooDeep => exact ⟨ahead_skipToBoundary (ahead_note hc' _), nofun⟩

theorem MakesItem.declarations {item : Cursor → Option Stmt × Cursor}
    (hitem : MakesItem good D item) (stop : Cursor → Bool) (room : Nat) (done : List Stmt)
    (hdone : ∀ s ∈ done, D s) {c : Cursor} (hc : Ahead good c) :
    Ahead good (declarations stop item room done c).2 ∧
      ∀ s ∈ (declarations stop item room done c).1, D s := by
  induction room generalizing done c with
  | zero => exact ⟨hc, fun s hs => hdone s (List.mem_reverse.1 hs)⟩
  | succ room ih =>
    rw [Reading.declarations]
    split
    · exact ⟨hc, fun s hs => hdone s (List.mem_reverse.1 hs)⟩
    · obtain ⟨hahead, hs⟩ := hitem c hc
      refine ih _ (fun s h => ?_) hahead
      rcases List.mem_append.1 h with h | h
      · exact hs s (Option.mem_toList.1 h)
      · exact hdone s h

theorem MakesItem.block {item : Cursor → Option Stmt × Cursor} (hitem : MakesItem good D item)
    (room : Nat) : Makes good (fun ss => ∀ s ∈ ss, D s) (block item room) := by
  have hbody : Makes good (fun ss => ∀ s ∈ ss, D s) (body item room) := by
    intro c hc
    obtain ⟨hahead, hss⟩ := hitem.declarations closesBlock room [] nofun hc
    exact .ok hahead hss
  rw [block_eq]
  exact hbody.bind fun ss hss => (makes_expect _ _).bind fun _ _ => makes_pure hss

theorem makes_checkReturn (keyword : Token) :
    Makes good (fun _ => True) (checkReturn keyword) := by
  intro c hc
  unfold checkReturn
  split
  · exact .ok hc trivial
  · exact .ok hc trivial

end

/-! ## Trees -/

/-- A property of expressions, of statements and of declarations that passes
from the parts to the whole, for trees that are made of good tokens. -/
structure Builds (good : Token → Prop) (E : Expr → Prop) (S D : Stmt → Prop) : Prop where
  bool (b : Bool) : E (.literal (.bool b))
  nil : E (.literal .nil)
  literal {t : Token} : good t → E (.literal t.literal)
  name (t : Token) : E (.name t)
  grouping {e : Expr} : E e → E (.grouping e)
  unary {e : Expr} (o : Token) : E e → E (.unary o e)
  binary {l r : Expr} (o : Token) : E l → E r → E (.binary l o r)
  logical {l r : Expr} (o : Token) : E l → E r → E (.logical l o r)
  assign {e : Expr} (t : Token) : E e → E (.assign t e)
  call {f : Expr} {es : List Expr} (paren : Token) : E f → (∀ e ∈ es, E e) → E (.call f paren es)
  var {e? : Option Expr} (t : Token) : (∀ e ∈ e?, E e) → D (.var t e?)
  function {ss : List Stmt} (t : Token) (params : List Token) : (∀ s ∈ ss, D s) →
    D (.function t params ss)
  statement {s : Stmt} : S s → D s
  expression {e : Expr} : E e → S (.expression e)
  print {e : Expr} : E e → S (.print e)
  block {ss : List Stmt} : (∀ s ∈ ss, D s) → S (.block ss)
  branch {e : Expr} {y : Stmt} {n? : Option Stmt} : E e → S y → (∀ n ∈ n?, S n) →
    S (.branch e y n?)
  loop {e : Expr} {s : Stmt} : E e → S s → S (.loop e s)
  ret {e? : Option Expr} (k : Token) : (∀ e ∈ e?, E e) → S (.ret k e?)

theorem Makes.chain {E : Expr → Prop} {operand : Reading Expr} (hoperand : Makes good E operand) {level : Level}
    (hlevel : ∀ l o r, E l → E r → E (level.node l o r)) (room : Nat) {left : Expr}
    (hleft : E left) : Makes good E (chain operand level room left) := by
  induction room generalizing left with
  | zero => exact makes_pure hleft
  | succ room ih =>
    rw [Reading.chain]
    refine (makes_accept _).bind fun t? _ => ?_
    cases t? with
    | none => exact makes_pure hleft
    | some t => exact hoperand.bind fun right hright => ih (hlevel left t right hleft hright)

section

variable {E : Expr → Prop} {S D : Stmt → Prop} (hB : Builds good E S D)
include hB

theorem Builds.level : ∀ level ∈ levels, ∀ l o r, E l → E r → E (level.node l o r) := by
  intro level hlevel l o r hl hr
  simp only [levels, List.mem_cons, List.not_mem_nil, or_false] at hlevel
  rcases hlevel with rfl | rfl | rfl | rfl | rfl | rfl
  · exact hB.logical o hl hr
  · exact hB.logical o hl hr
  all_goals exact hB.binary o hl hr

/-- A `for` is made of blocks, a loop and expression statements. -/
theorem Builds.forLoop {initial : Option Stmt} {condition step : Option Expr} {body : Stmt}
    (hinitial : ∀ s ∈ initial, D s) (hcondition : ∀ e ∈ condition, E e)
    (hstep : ∀ e ∈ step, E e) (hbody : S body) :
    S (Stmt.forLoop initial condition step body) := by
  have hround : ∀ e ∈ step, S (.block [body, .expression e]) := fun e he =>
    hB.block (List.forall_mem_cons.2 ⟨hB.statement hbody,
      List.forall_mem_singleton.2 (hB.statement (hB.expression (hstep e he)))⟩)
  have htest : E (condition.getD (.literal (.bool true))) := by
    cases condition with
    | none => exact hB.bool true
    | some e => exact hcondition e rfl
  have hwhole {round : Stmt} (h : S round) : ∀ s ∈ initial,
      S (.block [s, .loop (condition.getD (.literal (.bool true))) round]) := fun s hs =>
    hB.block (List.forall_mem_cons.2
      ⟨hinitial s hs, List.forall_mem_singleton.2 (hB.statement (hB.loop htest h))⟩)
  cases initial <;> cases step
  · exact hB.loop htest hbody
  · exact hB.loop htest (hround _ rfl)
  · exact hwhole hbody _ rfl
  · exact hwhole (hround _ rfl) _ rfl

/-! ## Expressions -/

theorem Makes.calls {arguments : Reading (List Expr)}
    (harguments : Makes good (fun es => ∀ e ∈ es, E e) arguments) (room : Nat) {callee : Expr}
    (hcallee : E callee) : Makes good E (calls arguments room callee) := by
  induction room generalizing callee with
  | zero => exact makes_pure hcallee
  | succ room ih =>
    rw [Reading.calls]
    refine (makes_take _).bind fun taken _ => ?_
    split
    · exact harguments.bind fun es hes => (makes_expect _ _).bind fun paren _ =>
        ih (hB.call paren hcallee hes)
    · exact makes_pure hcallee

theorem Makes.primary {inner : Reading Expr} (hinner : Makes good E inner) :
    Makes good E (primary inner) := by
  refine (makes_accept _).bind fun t? ht => ?_
  cases t? with
  | none => exact makes_refuse _
  | some t =>
    dsimp only
    split
    · exact makes_pure (hB.bool false)
    · exact makes_pure (hB.bool true)
    · exact makes_pure hB.nil
    · exact makes_pure (hB.name t)
    · exact hinner.bind fun e he => (makes_expect _ _).bind fun _ _ => makes_pure (hB.grouping he)
    · exact makes_pure (hB.literal (ht t rfl))

theorem makes_assignTo {target value : Expr} (htarget : E target) (hvalue : E value)
    (equals : Token) (rest : List Token) :
    Makes good E (assignTo target equals rest value) := by
  intro c hc
  unfold assignTo
  split
  · exact .ok hc (hB.assign _ hvalue)
  · exact .ok hc htarget

/-- **What every reading of an expression builds.** -/
theorem makes_expressions (room depth : Nat) : Makes good E (expression room depth) ∧
    (∀ ls, (∀ level ∈ ls, ∀ l o r, E l → E r → E (level.node l o r)) →
      Makes good E (operation room depth ls)) ∧ Makes good E (unary room depth) := by
  induction depth with
  | zero =>
    refine ⟨makes_throw _, fun ls _ => ?_, makes_throw _⟩
    cases ls <;> exact makes_throw _
  | succ depth ih =>
    obtain ⟨hexpression, hoperation, hunary⟩ := ih
    refine ⟨?_, fun ls hls => ?_, ?_⟩
    · rw [expression]
      refine (hoperation levels hB.level).bind fun target htarget =>
        (makes_accept _).bind fun t? _ => ?_
      cases t? with
      | none => exact makes_pure htarget
      | some equals =>
        have hget : Makes good (fun _ => True) (get : Reading Cursor) := fun c hc => .ok hc trivial
        exact hget.bind fun c _ => hexpression.bind fun value hvalue =>
          makes_assignTo hB htarget hvalue equals c.ahead
    · cases ls with
      | nil => exact hunary
      | cons level tighter =>
        obtain ⟨hlevel, htighter⟩ := List.forall_mem_cons.1 hls
        rw [operation]
        exact (hoperation tighter htighter).bind fun left hleft =>
          (hoperation tighter htighter).chain hlevel room hleft
    · rw [unary]
      refine (makes_accept _).bind fun t? _ => ?_
      cases t? with
      | some operator => exact hunary.bind fun e he => makes_pure (hB.unary operator he)
      | none =>
        exact (hexpression.primary hB).bind fun callee hcallee =>
          (hexpression.listed _ room).calls hB room hcallee

/-! ## Statements -/

theorem Makes.functionDeclaration {body : Reading (List Stmt)}
    (hbody : Makes good (fun ss => ∀ s ∈ ss, D s) body) (room : Nat) :
    Makes good D (functionDeclaration body room) :=
  (makes_expect _ _).bind fun name _ => (makes_expect _ _).bind fun _ _ =>
    ((makes_expect _ _).listed _ room).bind fun params _ => (makes_expect _ _).bind fun _ _ =>
      (makes_expect _ _).bind fun _ _ => hbody.withinFunction.bind fun _ hss =>
        makes_pure (hB.function name params hss)

theorem Makes.varDeclaration {value : Reading Expr} (hvalue : Makes good E value) :
    Makes good D (varDeclaration value) := by
  rw [varDeclaration_eq]
  exact (makes_expect _ _).bind fun name _ => (hvalue.ifTaken _).bind fun _ he =>
    (makes_expect _ _).bind fun _ _ => makes_pure (hB.var name he)

theorem Makes.expressionStatement {value : Reading Expr} (hvalue : Makes good E value) :
    Makes good S (expressionStatement value) :=
  hvalue.bind fun _ he => (makes_expect _ _).bind fun _ _ => makes_pure (hB.expression he)

theorem Makes.branchStatement {value : Reading Expr} {branch : Reading Stmt}
    (hvalue : Makes good E value) (hbranch : Makes good S branch) :
    Makes good S (branchStatement value branch) := by
  rw [branchStatement_eq]
  exact (makes_expect _ _).bind fun _ _ => hvalue.bind fun _ he => (makes_expect _ _).bind
    fun _ _ => hbranch.bind fun _ hyes => (hbranch.ifTaken _).bind fun _ hno =>
      makes_pure (hB.branch he hyes hno)

theorem Makes.loopStatement {value : Reading Expr} {body : Reading Stmt}
    (hvalue : Makes good E value) (hbody : Makes good S body) :
    Makes good S (loopStatement value body) :=
  (makes_expect _ _).bind fun _ _ => hvalue.bind fun _ he => (makes_expect _ _).bind fun _ _ =>
    hbody.bind fun _ hs => makes_pure (hB.loop he hs)

theorem Makes.initialClause {value : Reading Expr} (hvalue : Makes good E value) :
    Makes good (fun s? => ∀ s ∈ s?, D s) (initialClause value) := by
  refine (makes_take _).bind fun none _ => ?_
  split
  · exact makes_pure nofun
  refine (makes_take _).bind fun var _ => ?_
  split
  · exact (hvalue.varDeclaration hB).bind fun s hs =>
      makes_pure fun s' hs' => Option.some.inj hs' ▸ hs
  · exact (hvalue.expressionStatement hB).bind fun s hs =>
      makes_pure fun s' hs' => Option.some.inj hs' ▸ hB.statement hs

theorem Makes.forStatement {value : Reading Expr} {body : Reading Stmt}
    (hvalue : Makes good E value) (hbody : Makes good S body) :
    Makes good S (forStatement value body) := by
  rw [forStatement_eq]
  exact (makes_expect _ _).bind fun _ _ => (hvalue.initialClause hB).bind fun _ hinitial =>
    (hvalue.unlessSeen _).bind fun _ hcondition => (makes_expect _ _).bind fun _ _ =>
      (hvalue.unlessSeen _).bind fun _ hstep => (makes_expect _ _).bind fun _ _ =>
        hbody.bind fun _ hs => makes_pure (hB.forLoop hinitial hcondition hstep hs)

theorem Makes.printStatement {value : Reading Expr} (hvalue : Makes good E value) :
    Makes good S (printStatement value) :=
  hvalue.bind fun _ he => (makes_expect _ _).bind fun _ _ => makes_pure (hB.print he)

theorem Makes.returnStatement {value : Reading Expr} (hvalue : Makes good E value)
    (keyword : Token) : Makes good S (returnStatement keyword value) := by
  rw [returnStatement_eq]
  exact (makes_checkReturn keyword).bind fun _ _ => (hvalue.unlessSeen _).bind fun _ he =>
    (makes_expect _ _).bind fun _ _ => makes_pure (hB.ret keyword he)

/-- **What every reading of a statement or of a declaration builds.** -/
theorem makes_statements (room depth : Nat) :
    Makes good D (attempt room depth) ∧ Makes good S (statement room depth) := by
  induction depth with
  | zero => exact ⟨makes_throw _, makes_throw _⟩
  | succ depth ih =>
    obtain ⟨hattempt, hstatement⟩ := ih
    have hexpression := (makes_expressions hB room depth).1
    have hblock : Makes good (fun ss => ∀ s ∈ ss, D s) (block (declaration room depth) room) := by
      rw [declaration_eq]
      exact hattempt.recovering.block room
    constructor
    · rw [attempt]
      refine (makes_take _).bind fun isFun _ => ?_
      split
      · exact hblock.functionDeclaration hB room
      refine (makes_take _).bind fun isVar _ => ?_
      split
      · exact hexpression.varDeclaration hB
      · exact hstatement.mono fun _ => hB.statement
    · rw [statement]
      refine (makes_accept _).bind fun t? _ => ?_
      cases t? with
      | none => exact hexpression.expressionStatement hB
      | some t =>
        dsimp only
        split
        · exact hexpression.branchStatement hB hstatement
        · exact hexpression.loopStatement hB hstatement
        · exact hexpression.forStatement hB hstatement
        · exact hexpression.printStatement hB
        · exact hexpression.returnStatement hB t
        · exact hblock.bind fun _ hss => makes_pure (hB.block hss)

/-- **What the parser builds of good tokens**, whatever else is wrong with
them. -/
theorem Builds.readAll {ts : List Token} (hts : ∀ t ∈ ts, good t) (depth : Nat) :
    ∀ s ∈ (readAll depth ts).1, D s := by
  have hitem : MakesItem good D (declaration ts.length depth) := by
    rw [declaration_eq]
    exact (makes_statements hB ts.length depth).1.recovering
  exact (hitem.declarations Cursor.atEnd ts.length [] nofun
    (c := { ahead := ts }) hts).2

end

end Reading

end Treewalk
