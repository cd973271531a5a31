import Treewalk.Proofs.Grammar.Building
import Treewalk.Proofs.Tree.Contents

/-!
# Returns outside functions

While no function body is open, every `return` that is read is noted, so a
tree has no `return` outside functions without a fault of its own at the
keyword. `Covers pre m post` is what one reading contributes: with the
keywords `pre` noted before it, those of `post` are noted behind it. The
count of open function bodies is what it was before, however a reading ends;
so it is zero again after each declaration of a program.
-/

namespace Treewalk

open scoped List

namespace Reading

variable {α β : Type}

/-! ## Open function bodies -/

/-- Faults may be added, and the same function bodies are open. -/
def Onward (c c' : Cursor) : Prop := Extends c c' ∧ c'.openFunctions = c.openFunctions

/-- **However a reading ends, the count of open function bodies is restored.** -/
theorem steady_onward : Steady Onward where
  refl c := ⟨steady_extends.refl c, rfl⟩
  trans hab hbc := ⟨steady_extends.trans hab.1 hbc.1, hbc.2.trans hab.2⟩
  read h rest faults opens := ⟨steady_extends.read h rest faults opens, rfl⟩
  note c f := ⟨steady_extends.note c f, rfl⟩
  within h := ⟨h.1, by rw [h.2]; rfl⟩

theorem openFunctions_declaration (room depth : Nat) (c : Cursor) :
    (declaration room depth c).2.openFunctions = c.openFunctions := by
  rw [declaration_eq]
  exact ((keeps_statements steady_onward room depth).1.recovering steady_onward c).2

/-- The cursors between the declarations of a program, the first and the last
among them. -/
inductive Between (depth : Nat) (ts : List Token) : Cursor → Prop
  | start : Between depth ts { ahead := ts }
  | next {c : Cursor} : Between depth ts c → c.atEnd = false →
      Between depth ts (declaration ts.length depth c).2

theorem Between.openFunctions {depth : Nat} {ts : List Token} {c : Cursor}
    (h : Between depth ts c) : c.openFunctions = 0 := by
  induction h with
  | start => rfl
  | next _ _ ih => exact (openFunctions_declaration _ _ _).trans ih

/-- Reading a program goes from declaration to declaration. -/
theorem between_readAll (depth : Nat) (ts : List Token) :
    Between depth ts (readAll depth ts).2 := by
  have hrow (room : Nat) (done : List Stmt) {c : Cursor} (hc : Between depth ts c) :
      Between depth ts
        (declarations Cursor.atEnd (declaration ts.length depth) room done c).2 := by
    induction room generalizing done c with
    | zero => exact hc
    | succ room ih =>
      rw [declarations]
      split
      · exact hc
      · rename_i hend
        exact ih _ (hc.next (eq_false_of_ne_true hend))
  exact hrow ts.length [] .start

/-! ## Covered keywords -/

/-- The keyword of a `return` that a fault refuses. -/
def refused (f : Fault) : Option Token :=
  if f.cause = .returnOutsideFunction then f.token else none

/-- The keywords of the `return`s refused so far, in order. -/
def reported (c : Cursor) : List Token := c.faults.toList.filterMap refused

theorem reported_noteAt (c : Cursor) (keyword : Token) (rest : List Token) :
    reported (c.noteAt keyword rest .returnOutsideFunction) = reported c ++ [keyword] := by
  simp [reported, Cursor.noteAt, refused]

/-- Outside of all functions, a reading that yields a result adds to the
refused keywords: with `pre` among them before, `post` is among them in the
end. -/
def Covers (pre : List Token) (m : Reading α) (post : α → List Token) : Prop :=
  ∀ c a c', c.openFunctions = 0 → m c = .ok a c' → c'.openFunctions = 0 ∧
    ∃ added, reported c' = reported c ++ added ∧ post a <+ pre ++ added

/-- A reading that has nothing to cover, with results of the given kind. -/
structure Quiet (P : α → Prop) (m : Reading α) : Prop where
  keeps : Keeps Onward m
  makes : Makes (fun _ => True) P m

theorem Keeps.ok {R : Cursor → Cursor → Prop} {m : Reading α} (hm : Keeps R m) {c c' : Cursor}
    {a : α} (h : m c = .ok a c') : R c c' := by
  have hc := hm c
  rwa [h] at hc

theorem Onward.reported {c c' : Cursor} (h : Onward c c') :
    ∃ added, reported c' = reported c ++ added := by
  obtain ⟨⟨faults, hfaults⟩, -⟩ := h
  refine ⟨faults.filterMap refused, ?_⟩
  rw [Reading.reported, Reading.reported, ← hfaults, List.filterMap_append]

section

variable {pre : List Token} {m : Reading α} {f : α → Reading β} {post : β → List Token}
variable {P : α → Prop}

theorem covers_pure {b : β} (h : post b = pre) : Covers pre (pure b) post := by
  intro c a c' hopen hrun
  obtain ⟨rfl, rfl⟩ := EStateM.Result.ok.inj hrun
  exact ⟨hopen, [], (List.append_nil _).symm, h ▸ List.sublist_append_left _ _⟩

theorem covers_throw (e : Abandoned) : Covers pre (throw e) post := fun _ _ _ _ => nofun

theorem Covers.bind {mid : α → List Token} (hm : Covers pre m mid)
    (hf : ∀ a, Covers (mid a) (f a) post) : Covers pre (m >>= f) post := by
  intro c b c' hopen hrun
  obtain ⟨a, c₁, hfirst, hsecond⟩ := bind_eq_ok.1 hrun
  obtain ⟨hopen₁, added, hadded, hmid⟩ := hm c a c₁ hopen hfirst
  obtain ⟨hopen', more, hmore, hpost⟩ := hf a c₁ b c' hopen₁ hsecond
  refine ⟨hopen', added ++ more, by rw [hmore, hadded, List.append_assoc], ?_⟩
  rw [← List.append_assoc]
  exact hpost.trans (hmid.append (List.Sublist.refl more))

/-- What is covered before a quiet step is covered behind it. -/
theorem Quiet.bind (hm : Quiet P m) (hf : ∀ a, P a → Covers pre (f a) post) :
    Covers pre (m >>= f) post := by
  intro c b c' hopen hrun
  obtain ⟨a, c₁, hfirst, hsecond⟩ := bind_eq_ok.1 hrun
  have honward := hm.keeps.ok hfirst
  have hmade := hm.makes c fun _ _ => trivial
  rw [hfirst] at hmade
  obtain ⟨added, hadded⟩ := honward.reported
  cases hmade with
  | ok _ ha =>
    obtain ⟨hopen', more, hmore, hpost⟩ := hf a ha c₁ b c' (honward.2.trans hopen) hsecond
    refine ⟨hopen', added ++ more, by rw [hmore, hadded, List.append_assoc], hpost.trans ?_⟩
    exact (List.Sublist.refl pre).append (List.sublist_append_right added more)

theorem quiet_take (kind : Kind) : Quiet (fun _ => True) (take kind) :=
  ⟨keeps_take steady_onward kind, makes_take kind⟩

theorem quiet_accept (kinds : List Kind) : Quiet (fun _ => True) (accept kinds) :=
  ⟨keeps_accept steady_onward kinds, (makes_accept kinds).mono fun _ _ => trivial⟩

theorem quiet_expect (kind : Kind) (cause : GrammarFault) :
    Quiet (fun _ => True) (expect kind cause) :=
  ⟨keeps_expect steady_onward kind cause, makes_expect kind cause⟩

theorem Quiet.unlessSeen (h : Quiet P m) (kind : Kind) :
    Quiet (fun a? => ∀ a ∈ a?, P a) (unlessSeen kind m) :=
  ⟨h.keeps.unlessSeen steady_onward kind, h.makes.unlessSeen kind⟩

theorem Quiet.ifTaken (h : Quiet P m) (kind : Kind) :
    Quiet (fun a? => ∀ a ∈ a?, P a) (ifTaken kind m) :=
  ⟨h.keeps.ifTaken steady_onward kind, h.makes.ifTaken kind⟩

end

/-! ## Expressions -/

/-- No expression that is ever read holds a `return`. -/
theorem builds_returnless :
    Builds (fun _ => True) (fun e => e.returns = []) (fun _ => True) (fun _ => True) where
  bool _ := rfl
  nil := rfl
  literal _ := rfl
  name _ := rfl
  grouping he := he
  unary _ he := he
  binary _ hl hr := List.append_eq_nil_iff.2 ⟨hl, hr⟩
  logical _ hl hr := List.append_eq_nil_iff.2 ⟨hl, hr⟩
  assign _ he := he
  call _ hf hes := by
    rw [Expr.returns_call]
    exact List.append_eq_nil_iff.2 ⟨hf, List.flatMap_eq_nil_iff.2 hes⟩
  var _ _ := trivial
  function _ _ _ := trivial
  statement _ := trivial
  expression _ := trivial
  print _ := trivial
  block _ := trivial
  branch _ _ _ := trivial
  loop _ _ := trivial
  ret _ _ := trivial

/-- A reading of an expression, which holds no `return`. -/
abbrev QuietValue (value : Reading Expr) : Prop := Quiet (fun e => e.returns = []) value

theorem quiet_expression (room depth : Nat) : QuietValue (expression room depth) :=
  ⟨(keeps_expressions steady_onward room depth).1,
    (makes_expressions builds_returnless room depth).1⟩

/-! ## Statements -/

/-- A reading of a statement covers the `return`s in it. -/
def CoversStmt (m : Reading Stmt) : Prop := ∀ pre, Covers pre m fun s => pre ++ s.returns

theorem CoversStmt.ifTaken {m : Reading Stmt} (hm : CoversStmt m) (kind : Kind)
    (pre : List Token) :
    Covers pre (ifTaken kind m) fun s? => pre ++ s?.elim [] Stmt.returns := by
  refine (quiet_take kind).bind fun taken _ => ?_
  split
  · rw [map_eq_bind]
    exact (hm pre).bind fun s => covers_pure rfl
  · exact covers_pure (by simp)

/-- Where a `return` is covered: at its keyword. -/
theorem covers_checkReturn (pre : List Token) (keyword : Token) :
    Covers pre (checkReturn keyword) fun _ => pre ++ [keyword] := by
  intro c a c' hopen hrun
  rw [checkReturn, if_pos hopen] at hrun
  obtain ⟨-, rfl⟩ := EStateM.Result.ok.inj hrun
  exact ⟨hopen, [keyword], reported_noteAt c keyword c.ahead, List.Sublist.refl _⟩

/-- The `return`s of a `for` are those of its body, and of its initial clause
if it had any. -/
theorem returns_forLoop {initial : Option Stmt} {condition step : Option Expr} {body : Stmt}
    (hcondition : ∀ e ∈ condition, e.returns = []) (hstep : ∀ e ∈ step, e.returns = []) :
    (Stmt.forLoop initial condition step body).returns =
      initial.elim [] Stmt.returns ++ body.returns := by
  have htest : (condition.getD (.literal (.bool true))).returns = [] := by
    cases condition with
    | none => rfl
    | some e => exact hcondition e rfl
  cases initial <;> cases step <;>
    simp_all [Stmt.forLoop, Stmt.returns, Stmt.returnsAll]

section

variable {value : Reading Expr} (hvalue : QuietValue value)
include hvalue

theorem coversStmt_varDeclaration : CoversStmt (varDeclaration value) := by
  intro pre
  rw [varDeclaration_eq]
  refine (quiet_expect _ _).bind fun name _ => (hvalue.ifTaken _).bind fun e? he =>
    (quiet_expect _ _).bind fun _ _ => covers_pure ?_
  cases e? with
  | none => simp [Stmt.returns]
  | some e => simp [Stmt.returns, he e rfl]

theorem coversStmt_expressionStatement : CoversStmt (expressionStatement value) := fun pre =>
  hvalue.bind fun e he => (quiet_expect _ _).bind fun _ _ => covers_pure (by
    simp [Stmt.returns, he])

theorem coversStmt_printStatement : CoversStmt (printStatement value) := fun pre =>
  hvalue.bind fun e he => (quiet_expect _ _).bind fun _ _ => covers_pure (by
    simp [Stmt.returns, he])

theorem coversStmt_branchStatement {branch : Reading Stmt} (hbranch : CoversStmt branch) :
    CoversStmt (branchStatement value branch) := by
  intro pre
  rw [branchStatement_eq]
  refine (quiet_expect _ _).bind fun _ _ => hvalue.bind fun e he =>
    (quiet_expect _ _).bind fun _ _ => (hbranch pre).bind fun yes =>
      (hbranch.ifTaken _ _).bind fun no? => covers_pure ?_
  cases no? <;> simp [Stmt.returns, he]

theorem coversStmt_loopStatement {body : Reading Stmt} (hbody : CoversStmt body) :
    CoversStmt (loopStatement value body) := fun pre =>
  (quiet_expect _ _).bind fun _ _ => hvalue.bind fun e he => (quiet_expect _ _).bind fun _ _ =>
    (hbody pre).bind fun s => covers_pure (by simp [Stmt.returns, he])

theorem covers_initialClause (pre : List Token) :
    Covers pre (initialClause value) fun s? => pre ++ s?.elim [] Stmt.returns := by
  refine (quiet_take _).bind fun none _ => ?_
  split
  · exact covers_pure (by simp)
  refine (quiet_take _).bind fun var _ => ?_
  split
  · exact (coversStmt_varDeclaration hvalue pre).bind fun s => covers_pure rfl
  · exact (coversStmt_expressionStatement hvalue pre).bind fun s =>
      covers_pure rfl

theorem coversStmt_forStatement {body : Reading Stmt} (hbody : CoversStmt body) :
    CoversStmt (forStatement value body) := by
  intro pre
  rw [forStatement_eq]
  refine (quiet_expect _ _).bind fun _ _ => (covers_initialClause hvalue pre).bind fun initial =>
    (hvalue.unlessSeen _).bind fun condition hcondition => (quiet_expect _ _).bind fun _ _ =>
      (hvalue.unlessSeen _).bind fun step hstep => (quiet_expect _ _).bind fun _ _ =>
        (hbody _).bind fun s => covers_pure ?_
  rw [returns_forLoop hcondition hstep, List.append_assoc]

theorem coversStmt_returnStatement (keyword : Token) :
    CoversStmt (returnStatement keyword value) := by
  intro pre
  rw [returnStatement_eq]
  refine (covers_checkReturn pre keyword).bind fun _ => (hvalue.unlessSeen _).bind fun e? he =>
    (quiet_expect _ _).bind fun _ _ => covers_pure ?_
  cases e? with
  | none => rfl
  | some e => simp [Stmt.returns, he e rfl]

end

/-! ## Declarations -/

/-- A function keeps its `return`s to itself. -/
theorem coversStmt_functionDeclaration {body : Reading (List Stmt)} (hbody : Keeps Onward body)
    (room : Nat) : CoversStmt (functionDeclaration body room) := by
  intro pre
  have hparams : Quiet (fun _ => True)
      (listed (expect .identifier .noParameterName) .tooManyParameters room) :=
    ⟨(keeps_expect steady_onward _ _).listed steady_onward _ room,
      ((makes_expect _ _).listed _ room).mono fun _ _ => trivial⟩
  have hwithin : Covers pre (withinFunction body) fun _ => pre := by
    intro c a c' hopen hrun
    have honward := (hbody.withinFunction steady_onward).ok hrun
    obtain ⟨added, hadded⟩ := honward.reported
    exact ⟨honward.2.trans hopen, added, hadded, List.sublist_append_left pre added⟩
  exact (quiet_expect _ _).bind fun _ _ => (quiet_expect _ _).bind fun _ _ =>
    hparams.bind fun _ _ => (quiet_expect _ _).bind fun _ _ => (quiet_expect _ _).bind fun _ _ =>
      hwithin.bind fun _ => covers_pure (by simp [Stmt.returns])

/-- The reading of one declaration goes onward and covers the `return`s in
what it yields. -/
structure CoversItem (item : Cursor → Option Stmt × Cursor) : Prop where
  keeps : KeepsItem Onward item
  covers : ∀ c, c.openFunctions = 0 →
    ∃ added, reported (item c).2 = reported c ++ added ∧
      (item c).1.elim [] Stmt.returns <+ added

theorem CoversStmt.recovering {m : Reading Stmt} (hm : CoversStmt m) (hkeeps : Keeps Onward m) :
    CoversItem (recovering m) where
  keeps := hkeeps.recovering steady_onward
  covers c hopen := by
    obtain ⟨added, hadded⟩ := Onward.reported (hkeeps.recovering steady_onward c)
    cases h : m c with
    | ok s c' =>
      obtain ⟨-, added, hadded, hpost⟩ := hm [] c s c' hopen h
      simp only [Reading.recovering, h]
      exact ⟨added, hadded, hpost⟩
    | error e c' =>
      -- what is abandoned yields nothing
      refine ⟨added, hadded, ?_⟩
      cases e <;> simp [Reading.recovering, h]

theorem CoversItem.declarations {item : Cursor → Option Stmt × Cursor} (hitem : CoversItem item)
    (stop : Cursor → Bool) (room : Nat) (done : List Stmt) {c : Cursor}
    (hopen : c.openFunctions = 0) :
    ∃ added, reported (declarations stop item room done c).2 = reported c ++ added ∧
      (declarations stop item room done c).1.flatMap Stmt.returns <+
        done.reverse.flatMap Stmt.returns ++ added := by
  have hend : ∃ added, reported c = reported c ++ added ∧
      done.reverse.flatMap Stmt.returns <+ done.reverse.flatMap Stmt.returns ++ added :=
    ⟨[], (List.append_nil _).symm, List.sublist_append_left _ _⟩
  induction room generalizing done c with
  | zero => exact hend
  | succ room ih =>
    rw [Reading.declarations]
    split
    · exact hend
    · obtain ⟨added, hadded, hreturns⟩ := hitem.covers c hopen
      have hopen' : (item c).2.openFunctions = 0 := (hitem.keeps c).2.trans hopen
      obtain ⟨more, hmore, hrest⟩ := ih ((item c).1.toList ++ done) hopen'
        ⟨[], (List.append_nil _).symm, List.sublist_append_left _ _⟩
      refine ⟨added ++ more, by rw [hmore, hadded, List.append_assoc], hrest.trans ?_⟩
      have hreverse : ((item c).1.toList ++ done).reverse.flatMap Stmt.returns =
          done.reverse.flatMap Stmt.returns ++ (item c).1.elim [] Stmt.returns := by
        cases (item c).1 <;> simp
      rw [hreverse, List.append_assoc]
      exact (List.Sublist.refl _).append (hreturns.append (List.Sublist.refl more))

theorem CoversItem.block {item : Cursor → Option Stmt × Cursor} (hitem : CoversItem item)
    (room : Nat) (pre : List Token) :
    Covers pre (block item room) fun ss => pre ++ ss.flatMap Stmt.returns := by
  have hbody : Covers pre (body item room) fun ss => pre ++ ss.flatMap Stmt.returns := by
    intro c ss c' hopen hrun
    obtain ⟨rfl, rfl⟩ := EStateM.Result.ok.inj hrun
    obtain ⟨added, hadded, hreturns⟩ := hitem.declarations closesBlock room [] hopen
    have hopen' := (hitem.keeps.declarations steady_onward closesBlock room [] c).2
    exact ⟨hopen'.trans hopen, added, hadded, (List.Sublist.refl pre).append hreturns⟩
  rw [block_eq]
  exact hbody.bind fun ss => (quiet_expect _ _).bind fun _ _ => covers_pure rfl

/-- **Whatever is read outside of functions, its `return`s are covered.** -/
theorem coversStmt_statements (room depth : Nat) :
    CoversStmt (attempt room depth) ∧ CoversStmt (statement room depth) := by
  induction depth with
  | zero => exact ⟨fun _ => covers_throw _, fun _ => covers_throw _⟩
  | succ depth ih =>
    obtain ⟨hattempt, hstatement⟩ := ih
    have hexpression := quiet_expression room depth
    have hkeeps := keeps_statements steady_onward room depth
    have hitem : CoversItem (declaration room depth) := by
      rw [declaration_eq]
      exact hattempt.recovering hkeeps.1
    constructor
    · intro pre
      rw [attempt]
      refine (quiet_take _).bind fun isFun _ => ?_
      split
      · exact coversStmt_functionDeclaration (hitem.keeps.block steady_onward room) room pre
      refine (quiet_take _).bind fun isVar _ => ?_
      split
      · exact coversStmt_varDeclaration hexpression pre
      · exact hstatement pre
    · intro pre
      rw [statement]
      refine (quiet_accept _).bind fun t? _ => ?_
      cases t? with
      | none => exact coversStmt_expressionStatement hexpression pre
      | some t =>
        dsimp only
        split
        · exact coversStmt_branchStatement hexpression hstatement pre
        · exact coversStmt_loopStatement hexpression hstatement pre
        · exact coversStmt_forStatement hexpression hstatement pre
        · exact coversStmt_printStatement hexpression pre
        · exact coversStmt_returnStatement hexpression t pre
        · refine (hitem.block room pre).bind fun ss => covers_pure ?_
          rw [Stmt.returns_block]

/-- **Every `return` outside functions is refused.** -/
theorem returns_readAll_sublist (depth : Nat) (ts : List Token) :
    (readAll depth ts).1.flatMap Stmt.returns <+ reported (readAll depth ts).2 := by
  have hitem : CoversItem (declaration ts.length depth) := by
    rw [declaration_eq]
    exact (coversStmt_statements ts.length depth).1.recovering
      (keeps_statements steady_onward ts.length depth).1
  obtain ⟨added, hadded, hreturns⟩ := hitem.declarations Cursor.atEnd ts.length []
    (c := { ahead := ts }) rfl
  -- at the start nothing is noted yet
  have hstart : reported { ahead := ts } = [] := rfl
  rw [readAll, hadded, hstart]
  exact hreturns

end Reading

/-- The errors of refused `return`s, in order. -/
theorem sublist_errors_of_reported (faults : List Fault) :
    (faults.filterMap Reading.refused).map
        (.atToken · GrammarFault.returnOutsideFunction.message) <+
      faults.map Fault.error := by
  induction faults with
  | nil => exact List.Sublist.refl _
  | cons f faults ih =>
    rw [List.filterMap_cons, List.map_cons]
    cases h : Reading.refused f with
    | none => exact ih.cons _
    | some t =>
      unfold Reading.refused at h
      split at h
      · rename_i hcause
        have herror : f.error = .atToken t GrammarFault.returnOutsideFunction.message := by
          rw [Fault.error, h, hcause]
          rfl
        rw [herror]
        exact ih.cons_cons _
      · cases h

end Treewalk
