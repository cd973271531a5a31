import Treewalk.Proofs.Grammar.Completeness
import Treewalk.Proofs.Grammar.Language

/-!
# What is read follows the rules

Whatever is read without a fault has a derivation with the tree that was
built, and is read in the same way wherever else it stands. The second half
is what makes a part of a source mean the same when other text follows it.
-/

namespace Treewalk

open Grammar

namespace Reading

/-- The tokens derive the tree, and are read as it at a given depth wherever
they stand. -/
structure Recognized (p : Phrase) (depth : ℕ) (ts : List Token) (e : Expr) : Prop where
  derives : Derives p ts e
  reads : Reads false (phrase p depth) (extensions p) ts e

theorem Recognized.readsExpr {depth : ℕ} {ts : List Token} {e : Expr}
    (h : Recognized .assignment depth ts e) : ReadsExpr depth ts e := ⟨h.derives.starts, h.reads⟩

variable {room : ℕ}

/-! ## Expressions -/

/-- The links of a chain behind `left`. -/
def Linked (O : List Token → Expr → Prop) (level : Level) (left : Expr) (ts : List Token)
    (e : Expr) : Prop :=
  ∃ links : List Link, ts = links.flatMap Link.all ∧
    e = links.foldl (fun left l => level.node left l.operator l.operand) left ∧
    (∀ l ∈ links, l.operator.kind ∈ level.operators) ∧ ∀ l ∈ links, O l.tokens l.operand

theorem Linked.nil (O : List Token → Expr → Prop) (level : Level) (left : Expr) :
    Linked O level left [] left :=
  ⟨[], rfl, rfl, fun _ h => absurd h List.not_mem_nil, fun _ h => absurd h List.not_mem_nil⟩

theorem Linked.cons {O : List Token → Expr → Prop} {level : Level} {left right e : Expr}
    {operator : Token} {us vs : List Token} (hkind : operator.kind ∈ level.operators)
    (hright : O us right) (h : Linked O level (level.node left operator right) vs e) :
    Linked O level left (operator :: (us ++ vs)) e := by
  obtain ⟨links, rfl, rfl, hoperators, hoperands⟩ := h
  refine ⟨⟨operator, us, right⟩ :: links, rfl, rfl, ?_, ?_⟩
  · rintro l (_ | ⟨_, hl⟩)
    · exact hkind
    · exact hoperators l hl
  · rintro l (_ | ⟨_, hl⟩)
    · exact hright
    · exact hoperands l hl

theorem Yields.chain {operand : Reading Expr} {O : List Token → Expr → Prop}
    (hoperand : Yields room operand fun _ ts _ e => O ts e) (level : Level) (room' : ℕ)
    (left : Expr) :
    Yields room (chain operand level room' left) fun _ ts _ e => Linked O level left ts e := by
  have hstop (left : Expr) : Yields room (pure left : Reading Expr) fun _ ts _ e =>
      Linked O level left ts e := by
    refine (yields_pure left).mono ?_
    rintro _ _ _ _ ⟨rfl, rfl⟩
    exact .nil O level _
  induction room' generalizing left with
  | zero => exact hstop left
  | succ room' ih =>
    rw [Reading.chain]
    refine (Yields.accept (hstop left) fun operator _ =>
      (hoperand.bind fun right => ih (level.node left operator right)).of_le
        (Nat.sub_le _ _)).mono ?_
    rintro opens ts rest e (⟨-, h⟩ | ⟨operator, _, hkind, rfl, us, vs, right, rfl, hright, h⟩)
    · exact h
    · exact .cons hkind hright h

/-- The argument lists behind `callee`. -/
def Called (I : List Token → Expr → Prop) (callee : Expr) (ts : List Token) (e : Expr) : Prop :=
  ∃ lists : List Arguments, ts = lists.flatMap Arguments.all ∧
    e = lists.foldl (fun f a => .call f a.closing (a.parts.map (·.2))) callee ∧
    (∀ a ∈ lists, a.Punctuated) ∧ ∀ a ∈ lists, ∀ p ∈ a.parts, I p.1 p.2

theorem Called.nil (I : List Token → Expr → Prop) (callee : Expr) : Called I callee [] callee :=
  ⟨[], rfl, rfl, fun _ h => absurd h List.not_mem_nil, fun _ h => absurd h List.not_mem_nil⟩

theorem Called.cons {I : List Token → Expr → Prop} {callee e : Expr} {opening closing : Token}
    {us vs : List Token} {as : List Expr} (hopening : opening.kind = .leftParen)
    (has : Listed I 0 us as) (hclosing : closing.kind = .rightParen)
    (h : Called I (.call callee closing as) vs e) :
    Called I callee (opening :: (us ++ closing :: vs)) e := by
  obtain ⟨parts, hcommas, rfl, hlength, hitems⟩ := has
  obtain ⟨lists, rfl, rfl, hlists, hparts⟩ := h
  refine ⟨⟨opening, us, closing, parts⟩ :: lists, by simp [Arguments.all], rfl, ?_, ?_⟩
  · rintro a (_ | ⟨_, ha⟩)
    · exact ⟨hopening, hclosing, hcommas, by simpa using hlength⟩
    · exact hlists a ha
  · rintro a (_ | ⟨_, ha⟩)
    · exact hitems
    · exact hparts a ha

theorem Yields.calls {arguments : Reading (List Expr)} {I : List Token → Expr → Prop}
    (harguments : Yields room arguments fun _ ts rest as => rest ≠ [] → Listed I 0 ts as)
    (room' : ℕ) (callee : Expr) :
    Yields room (calls arguments room' callee) fun _ ts _ e => Called I callee ts e := by
  have hstop (callee : Expr) : Yields room (pure callee : Reading Expr) fun _ ts _ e =>
      Called I callee ts e := by
    refine (yields_pure callee).mono ?_
    rintro _ _ _ _ ⟨rfl, rfl⟩
    exact .nil I _
  induction room' generalizing callee with
  | zero => exact hstop callee
  | succ room' ih =>
    rw [Reading.calls]
    refine (Yields.take (hstop callee) ((harguments.bind fun arguments' =>
      Yields.expect fun paren _ => ih (.call callee paren arguments')).of_le
        (Nat.sub_le _ _))).mono ?_
    rintro opens ts rest e (⟨-, h⟩ | ⟨opening, _, hopening, rfl, us, _, as, rfl, has, closing, vs,
      hclosing, rfl, h⟩)
    · exact h
    · exact .cons hopening (has (by simp)) hclosing h

/-- A row of links or argument lists that ends in a variable is empty. -/
theorem name_of_foldl {α : Type} {node : Expr → α → Expr} (hnode : ∀ e a t, node e a ≠ .name t)
    {rows : List α} {e : Expr} {t : Token} (h : rows.foldl node e = .name t) :
    rows = [] ∧ e = .name t := by
  rcases List.eq_nil_or_concat rows with rfl | ⟨init, last, rfl⟩
  · exact ⟨rfl, h⟩
  · rw [List.concat_eq_append, List.foldl_concat] at h
    exact absurd h (hnode _ _ _)

/-- **Only a variable derives a variable**: what stands in front of the sign
of an assignment is a single name. -/
theorem eq_of_derives_name {p : Phrase} {ts : List Token} {e : Expr} (h : Derives p ts e)
    {t : Token} (he : e = .name t) : ts = [t] ∧ t.kind = .identifier := by
  induction h with
  | assignment _ ih | operand _ ih => exact ih he
  | @chain _ _ _ node _ _ _ hchain _ _ _ ih _ =>
    have hnode : ∀ e (l : Link) t, node e l.operator l.operand ≠ .name t := by
      intro e l t
      cases hchain <;> exact Expr.noConfusion
    obtain ⟨rfl, he⟩ := name_of_foldl hnode he
    simpa using ih he
  | call _ _ _ ih _ =>
    obtain ⟨rfl, he⟩ := name_of_foldl (fun _ _ _ => Expr.noConfusion) he
    simpa using ih he
  | name h =>
    obtain rfl := Expr.name.inj he
    exact ⟨rfl, h⟩
  | _ => cases he

theorem yields_assignTo (target : Expr) (equals : Token) (rest : List Token) (value : Expr) :
    Yields room (assignTo target equals rest value) fun _ ts _ e =>
      ts = [] ∧ ∃ name, target = .name name ∧ e = .assign name value where
  keeps := keeps_assignTo steady_extends target equals rest value
  refused := by
    intro c c' h
    unfold assignTo at h
    split at h <;> cases h
  read := by
    intro c c' e h _ hfaults
    unfold assignTo at h
    split at h
    · obtain ⟨rfl, rfl⟩ := EStateM.Result.ok.inj h
      exact ⟨[], rfl, rfl, rfl, _, rfl, rfl⟩
    · obtain ⟨rfl, rfl⟩ := EStateM.Result.ok.inj h
      exact absurd hfaults (Cursor.faults_noteAt_ne _ _ _ _)

theorem yields_single {t : Token} {e : Expr} (h : Derives .primary [t] e) {depth : ℕ} :
    Yields room (pure e : Reading Expr) fun _ ts _ e => Recognized .primary depth (t :: ts) e := by
  refine (yields_pure e).mono ?_
  rintro _ _ _ _ ⟨rfl, rfl⟩
  exact ⟨h, reads_single h depth⟩

theorem yields_primary {depth : ℕ}
    (h : Yields room (expression room depth) fun _ ts _ e => Recognized .assignment depth ts e) :
    Yields room (phrase .primary depth room) fun _ ts _ e => Recognized .primary depth ts e := by
  rw [phrase, primary]
  refine (Yields.accept (Q := fun t _ ts _ e => Recognized .primary depth (t :: ts) e)
    (yields_refuse _) fun t ht => Yields.of_le ?_ (Nat.sub_le room 1)).mono ?_
  · dsimp only
    split
    case h_5 hopening =>
      refine (h.bind fun e => Yields.expect fun closing _ => yields_pure (Expr.grouping e)).mono ?_
      rintro _ _ _ _ ⟨us, _, e, rfl, he, closing, _, hclosing, rfl, rfl, rfl⟩
      exact ⟨.grouping hopening he.derives hclosing, reads_grouping hopening hclosing he.reads⟩
    case h_6 =>
      -- the two kinds of primary that no other case is for
      have hkind : t.kind = .number ∨ t.kind = .string := by
        simp only [primaryKinds, List.mem_cons, List.not_mem_nil] at ht
        tauto
      rcases hkind with hk | hk
      · exact yields_single (.number hk)
      · exact yields_single (.string hk)
    case h_1 hk => exact yields_single (.false hk)
    case h_2 hk => exact yields_single (.true hk)
    case h_3 hk => exact yields_single (.nil hk)
    case h_4 hk => exact yields_single (.name hk)
  · rintro opens ts rest e (⟨-, h⟩ | ⟨t, us, -, rfl, h⟩)
    · exact h.elim
    · exact h

theorem yields_call {depth : ℕ}
    (h : Yields room (expression room depth) fun _ ts _ e => Recognized .assignment depth ts e) :
    Yields room (phrase .call depth room) fun _ ts _ e => Recognized .call depth ts e := by
  refine ((yields_primary h).bind fun callee =>
    (h.listed .tooManyArguments).calls room callee).mono ?_
  rintro _ _ _ _ ⟨us, _, callee, rfl, hcallee, lists, rfl, rfl, hlists, hparts⟩
  exact ⟨.call hcallee.derives hlists fun a ha p hp => (hparts a ha p hp).derives,
    reads_call hcallee.reads hlists fun a ha p hp =>
      ⟨(hparts a ha p hp).derives.starts, (hparts a ha p hp).reads⟩⟩

theorem yields_assignment {depth : ℕ}
    (htarget : Yields room (operation room depth levels) fun _ ts _ e =>
      Recognized .logicOr depth ts e)
    (hvalue : Yields room (expression room depth) fun _ ts _ e =>
      Recognized .assignment depth ts e) :
    Yields room (expression room (depth + 1)) fun _ ts _ e =>
      Recognized .assignment (depth + 1) ts e := by
  have hget : Yields room (get : Reading Cursor) fun _ ts _ _ => ts = [] := by
    refine ⟨fun c => steady_extends.refl c, nofun, fun h _ _ => ?_⟩
    obtain ⟨rfl, rfl⟩ := EStateM.Result.ok.inj h
    exact ⟨[], rfl, rfl, rfl⟩
  rw [expression]
  refine (htarget.bind fun target => Yields.accept (yields_pure target) fun equals _ =>
    (hget.bind fun c => hvalue.bind fun value =>
      yields_assignTo target equals c.ahead value).of_le (Nat.sub_le _ _)).mono ?_
  rintro _ _ _ _ ⟨us, _, target, rfl, ht, ⟨-, rfl, rfl⟩ | ⟨equals, _, hequals, rfl, _, _, c, rfl,
    rfl, vs, _, value, rfl, hv, rfl, name, rfl, rfl⟩⟩
  · rw [List.append_nil]
    exact ⟨.assignment ht.derives, reads_assignment ht.reads⟩
  · -- the target was read as an operation and found to be a name afterwards
    obtain ⟨rfl, hname⟩ := eq_of_derives_name ht.derives rfl
    have hequals : equals.kind = .equal := by simpa using hequals
    rw [List.append_nil]
    exact ⟨.assign hname hequals hv.derives, reads_assign hequals ht.reads hv.reads⟩

theorem yields_chain {p q : Phrase} {operators : List Kind} {node : Expr → Token → Expr → Expr}
    (hchain : Chain p q operators node) {depth : ℕ}
    (h : Yields room (phrase q depth room) fun _ ts _ e => Recognized q depth ts e) :
    Yields room (phrase p (depth + 1) room) fun _ ts _ e => Recognized p (depth + 1) ts e := by
  rw [(phrase_of_chain hchain depth room).2] at h
  rw [(phrase_of_chain hchain (depth + 1) room).1, tight_of_chain hchain, operation]
  refine (h.bind fun left => h.chain _ room left).mono ?_
  rintro _ _ _ _ ⟨us, _, left, rfl, hleft, links, rfl, rfl, hoperators, hoperands⟩
  exact ⟨.chain hchain hleft.derives hoperators fun l hl => (hoperands l hl).derives,
    reads_chain hchain hleft.reads hoperators fun l hl => (hoperands l hl).reads⟩

theorem yields_unary {depth : ℕ}
    (hunary : Yields room (phrase .unary (depth + 1) room) fun _ ts _ e =>
      Recognized .unary (depth + 1) ts e)
    (hcall : Yields room (phrase .call depth room) fun _ ts _ e => Recognized .call depth ts e) :
    Yields room (phrase .unary (depth + 2) room) fun _ ts _ e =>
      Recognized .unary (depth + 2) ts e := by
  change Yields room (unary room depth) _ at hunary
  change Yields room (unary room (depth + 1)) _
  rw [unary]
  refine (Yields.accept hcall fun operator _ => (hunary.bind fun e =>
    yields_pure (Expr.unary operator e)).of_le (Nat.sub_le _ _)).mono ?_
  rintro _ _ _ _ (⟨-, h⟩ | ⟨operator, _, hoperator, rfl, us, _, e, rfl, he, rfl, rfl⟩)
  · exact ⟨.operand h.derives, reads_operand h.derives.starts h.reads⟩
  · have hoperator : operator.kind = .bang ∨ operator.kind = .minus := by simpa using hoperator
    rw [List.append_nil]
    exact ⟨.unary hoperator he.derives, reads_unary hoperator he.reads⟩

/-- **What is read of an expression follows the rules.** -/
theorem yields_phrase (p : Phrase) (depth room : ℕ) :
    Yields room (phrase p depth room) fun _ ts _ e => Recognized p depth ts e := by
  -- a call stands two steps below a prefix operator, hence the strong induction
  induction depth using Nat.strong_induction_on generalizing p with
  | _ depth ih =>
    have hexpression : Yields room (expression room depth) fun _ ts _ e =>
        Recognized .assignment depth ts e := by
      cases depth with
      | zero => exact yields_tooDeep.mono fun _ _ _ _ h => h.elim
      | succ depth =>
        exact yields_assignment (ih depth (by omega) .logicOr) (ih depth (by omega) .assignment)
    have hchain (p q : Phrase) (operators : List Kind) (node : Expr → Token → Expr → Expr)
        (h : Chain p q operators node) :
        Yields room (phrase p depth room) fun _ ts _ e => Recognized p depth ts e := by
      cases depth with
      | zero =>
        rw [(phrase_of_chain h 0 room).1]
        exact yields_tooDeep.mono fun _ _ _ _ h => h.elim
      | succ depth => exact yields_chain h (ih depth (by omega) q)
    cases p with
    | assignment => exact hexpression
    | logicOr => exact hchain _ _ _ _ .logicOr
    | logicAnd => exact hchain _ _ _ _ .logicAnd
    | equality => exact hchain _ _ _ _ .equality
    | comparison => exact hchain _ _ _ _ .comparison
    | term => exact hchain _ _ _ _ .term
    | factor => exact hchain _ _ _ _ .factor
    | unary =>
      match depth with
      | 0 => exact yields_tooDeep.mono fun _ _ _ _ h => h.elim
      | 1 => exact yields_tooDeep.mono fun _ _ _ _ h => h.elim
      | depth + 2 =>
        exact yields_unary (ih (depth + 1) (by omega) .unary) (ih depth (by omega) .call)
    | call => exact yields_call hexpression
    | primary => exact yields_primary hexpression

theorem yields_expression (depth room : ℕ) :
    Yields room (expression room depth) fun _ ts _ e => Recognized .assignment depth ts e :=
  yields_phrase .assignment depth room

/-! ## Clauses -/

theorem yields_varDeclaration (depth room : ℕ) :
    Yields room (varDeclaration (expression room depth)) fun _ ts _ s =>
      (∀ keyword : Token, keyword.kind = .kwVar → VarDecl (keyword :: ts) s) ∧
        Reads false (fun room => varDeclaration (expression room depth)) [] ts s := by
  rw [varDeclaration_eq]
  refine (Yields.expect fun name _ =>
    ((yields_expression depth room).of_le (Nat.sub_le _ _)).ifTaken.bind fun initial =>
      Yields.expect fun _ _ => yields_pure (Stmt.var name initial)).mono ?_
  rintro _ _ _ _ ⟨name, _, hname, rfl, _, _, initial, rfl, hinitial, semicolon, _, hsemicolon,
    rfl, rfl, rfl⟩
  rcases hinitial with ⟨-, rfl, rfl⟩ | ⟨equals, ts, e, hequals, rfl, rfl, he⟩
  · exact ⟨fun keyword hkeyword => .plain hkeyword hname hsemicolon,
      reads_varDeclaration_plain hname hsemicolon depth⟩
  · exact ⟨fun keyword hkeyword => .initial hkeyword hname hequals he.derives hsemicolon,
      reads_varDeclaration_initial hname hequals he.readsExpr hsemicolon⟩

theorem yields_expressionStatement (depth room : ℕ) :
    Yields room (expressionStatement (expression room depth)) fun _ ts _ s => ExprStmt ts s ∧
      Reads false (fun room => expressionStatement (expression room depth)) [] ts s := by
  refine ((yields_expression depth room).bind fun e => Yields.expect fun _ _ =>
    yields_pure (Stmt.expression e)).mono ?_
  rintro _ _ _ _ ⟨ts, _, e, rfl, he, semicolon, _, hsemicolon, rfl, rfl, rfl⟩
  exact ⟨.mk he.derives hsemicolon, reads_expressionStatement he.readsExpr hsemicolon⟩

theorem yields_unlessSeen (kind : Kind) (depth room : ℕ) :
    Yields room (unlessSeen kind (expression room depth)) fun _ ts _ e? =>
      Optional DerivesExpr ts e? ∧ Optional (ReadsExpr depth) ts e? := by
  refine (yields_expression depth room).unlessSeen.mono ?_
  rintro _ _ _ _ (⟨rfl, rfl⟩ | ⟨e, rfl, he⟩)
  · exact ⟨.none, .none⟩
  · exact ⟨.some he.derives, .some he.readsExpr⟩

theorem yields_initialClause (depth room : ℕ) :
    Yields room (initialClause (expression room depth)) fun _ ts _ s? => Initial ts s? ∧
      Reads false (fun room => initialClause (expression room depth)) [] ts s? := by
  have hvar := ((yields_varDeclaration depth room).bind fun s =>
    yields_pure (some s)).of_le (Nat.sub_le room 1)
  have hexpression := (yields_expressionStatement depth room).bind fun s => yields_pure (some s)
  refine (Yields.take (Yields.take hexpression hvar) (yields_pure none)).mono ?_
  rintro _ _ _ _ (⟨-, ⟨-, ts, _, s, rfl, ⟨hs, hread⟩, rfl, rfl⟩ | ⟨keyword, _, hkeyword, rfl, ts,
    _, s, rfl, ⟨hs, hread⟩, rfl, rfl⟩⟩ | ⟨semicolon, _, hsemicolon, rfl, rfl, rfl⟩)
  · rw [List.append_nil]
    exact ⟨.expression hs, reads_initialClause_expression hs.starts hread⟩
  · rw [List.append_nil]
    exact ⟨.var (hs keyword hkeyword), reads_initialClause_var hkeyword hread⟩
  · exact ⟨.none hsemicolon, reads_initialClause_none hsemicolon depth⟩

/-! ## Statements -/

/-- The tokens derive the statement or declaration, and are read as it at a
given depth wherever they stand. -/
structure RecognizedForm (inside : Bool) (f : Form) (depth : ℕ) (ts : List Token) (s : Stmt) :
    Prop where
  derives : DerivesStmt inside f ts s
  reads : ReadsForm inside f depth ts s

/-- A statement was read from `ts` with `rest` behind it: if it could still
take an `else`, none comes. -/
def RecognizedStmt (depth opens : ℕ) (ts rest : List Token) (s : Stmt) : Prop :=
  ∃ dangling, RecognizedForm (decide (0 < opens)) (.statement dangling) depth ts s ∧
    (dangling = true → Stops [.kwElse] rest)

theorem yields_checkReturn (keyword : Token) :
    Yields room (checkReturn keyword) fun opens ts _ _ => ts = [] ∧ 0 < opens where
  keeps := keeps_checkReturn steady_extends keyword
  refused := by
    intro c c' h
    unfold checkReturn at h
    split at h <;> cases h
  read := by
    intro c c' _ h _ hfaults
    unfold checkReturn at h
    split at h
    · obtain ⟨-, rfl⟩ := EStateM.Result.ok.inj h
      exact absurd hfaults (Cursor.faults_noteAt_ne _ _ _ _)
    · rename_i hopens
      obtain ⟨-, rfl⟩ := EStateM.Result.ok.inj h
      exact ⟨[], rfl, rfl, rfl, Nat.pos_of_ne_zero hopens⟩

variable {depth : ℕ}

theorem yields_branchStatement {keyword : Token} (hkeyword : keyword.kind = .kwIf)
    (h : Yields room (statement room depth) (RecognizedStmt depth)) :
    Yields room (branchStatement (expression room depth) (statement room depth))
      fun opens ts rest s => RecognizedStmt (depth + 1) opens (keyword :: ts) rest s := by
  rw [branchStatement_eq]
  refine (Yields.expect fun _ _ => (yields_expression depth room).bind fun condition =>
    Yields.expect fun _ _ => h.bind fun yes => (h.of_le (Nat.sub_le _ _)).ifTaken.bind fun no =>
      yields_pure (Stmt.branch condition yes no)).mono ?_
  rintro opens _ rest _ ⟨opening, _, hopening, rfl, cs, _, condition, rfl, hcondition, closing, _,
    hclosing, rfl, ts, _, yes, rfl, ⟨dangling, hyes, helse⟩, _, _, no, rfl, hno, rfl, rfl⟩
  rw [List.append_nil]
  rcases hno with ⟨hstop, rfl, rfl⟩ | ⟨keywordElse, us, no, hkeywordElse, rfl, rfl, danglingNo, hno,
    hend⟩
  · rw [List.append_nil]
    exact ⟨true, ⟨.branch hkeyword hopening hcondition.derives hclosing hyes.derives,
      reads_branch hkeyword hopening hcondition.readsExpr hclosing hyes.reads⟩, fun _ => hstop rfl⟩
  · -- the branch in front of the `else` could not take it
    have hfalse : dangling = false := by
      cases dangling with
      | false => rfl
      | true => exact absurd (by simp [hkeywordElse]) (stops_cons.1 (helse rfl))
    subst hfalse
    exact ⟨danglingNo, ⟨.branchElse hkeyword hopening hcondition.derives hclosing hyes.derives
      hkeywordElse hno.derives, reads_branchElse hkeyword hopening hcondition.readsExpr hclosing
      hyes.reads hkeywordElse hno.reads⟩, hend⟩

theorem yields_loopStatement {keyword : Token} (hkeyword : keyword.kind = .kwWhile)
    (h : Yields room (statement room depth) (RecognizedStmt depth)) :
    Yields room (loopStatement (expression room depth) (statement room depth))
      fun opens ts rest s => RecognizedStmt (depth + 1) opens (keyword :: ts) rest s := by
  refine (Yields.expect fun _ _ => (yields_expression depth room).bind fun condition =>
    Yields.expect fun _ _ => h.bind fun body => yields_pure (Stmt.loop condition body)).mono ?_
  rintro opens _ rest _ ⟨opening, _, hopening, rfl, cs, _, condition, rfl, hcondition, closing, _,
    hclosing, rfl, ts, _, body, rfl, ⟨dangling, hbody, hend⟩, rfl, rfl⟩
  rw [List.append_nil]
  exact ⟨dangling, ⟨.loop hkeyword hopening hcondition.derives hclosing hbody.derives,
    reads_loop hkeyword hopening hcondition.readsExpr hclosing hbody.reads⟩, hend⟩

theorem yields_forStatement {keyword : Token} (hkeyword : keyword.kind = .kwFor)
    (h : Yields room (statement room depth) (RecognizedStmt depth)) :
    Yields room (forStatement (expression room depth) (statement room depth))
      fun opens ts rest s => RecognizedStmt (depth + 1) opens (keyword :: ts) rest s := by
  rw [forStatement_eq]
  refine (Yields.expect fun _ _ => (yields_initialClause depth room).bind fun initial =>
    (yields_unlessSeen _ depth room).bind fun condition => Yields.expect fun _ _ =>
      (yields_unlessSeen _ depth room).bind fun step => Yields.expect fun _ _ =>
        h.bind fun body => yields_pure (Stmt.forLoop initial condition step body)).mono ?_
  rintro opens _ rest _ ⟨opening, _, hopening, rfl, is, _, initial, rfl, ⟨hinitial, hreadInitial⟩,
    cs, _, condition, rfl, ⟨hcondition, hreadCondition⟩, semicolon, _, hsemicolon, rfl, ss, _, step,
    rfl, ⟨hstep, hreadStep⟩, closing, _, hclosing, rfl, ts, _, body, rfl, ⟨dangling, hbody, hend⟩,
    rfl, rfl⟩
  rw [List.append_nil, forLoop_eq_forTree]
  exact ⟨dangling, ⟨.forLoop hkeyword hopening hinitial hcondition hsemicolon hstep hclosing
    hbody.derives, reads_forLoop hkeyword hopening hreadInitial hreadCondition hsemicolon hreadStep
    hclosing hbody.reads⟩, hend⟩

theorem yields_printStatement {keyword : Token} (hkeyword : keyword.kind = .kwPrint) :
    Yields room (printStatement (expression room depth))
      fun opens ts rest s => RecognizedStmt (depth + 1) opens (keyword :: ts) rest s := by
  refine ((yields_expression depth room).bind fun e => Yields.expect fun _ _ =>
    yields_pure (Stmt.print e)).mono ?_
  rintro opens _ rest _ ⟨ts, _, e, rfl, he, semicolon, _, hsemicolon, rfl, rfl, rfl⟩
  exact ⟨false, ⟨.print hkeyword he.derives hsemicolon,
    reads_print hkeyword he.readsExpr hsemicolon⟩, nofun⟩

theorem yields_returnStatement {keyword : Token} (hkeyword : keyword.kind = .kwReturn) :
    Yields room (returnStatement keyword (expression room depth))
      fun opens ts rest s => RecognizedStmt (depth + 1) opens (keyword :: ts) rest s := by
  rw [returnStatement_eq]
  refine ((yields_checkReturn keyword).bind fun _ => (yields_unlessSeen _ depth room).bind fun e =>
    Yields.expect fun _ _ => yields_pure (Stmt.ret keyword e)).mono ?_
  rintro opens _ rest _ ⟨_, _, _, rfl, ⟨rfl, hopens⟩, ts, _, e, rfl, ⟨he, hread⟩, semicolon, _,
    hsemicolon, rfl, rfl, rfl⟩
  refine ⟨false, ?_, nofun⟩
  rw [decide_eq_true hopens]
  exact ⟨.ret hkeyword he hsemicolon, reads_ret hkeyword hread hsemicolon⟩

/-- The language of a declaration: it stands inside a function if one is
open. -/
def RecognizedDecl (depth opens : ℕ) (ts : List Token) (s : Stmt) : Prop :=
  RecognizedForm (decide (0 < opens)) .declaration depth ts s

theorem RecognizedDecl.length_pos {opens : ℕ} {ts : List Token} {s : Stmt}
    (h : RecognizedDecl depth opens ts s) : 0 < ts.length := h.derives.starts.length_pos

theorem yields_block
    (h : Yields room (attempt room depth) fun opens ts _ s => RecognizedDecl depth opens ts s) :
    Yields room (block (declaration room depth) room) fun opens ts _ statements =>
      ∃ us endBrace, endBrace.kind = .rightBrace ∧ ts = us ++ [endBrace] ∧
        InRow (RecognizedDecl depth) opens us statements := by
  rw [declaration_eq]
  exact h.recovering.block fun _ _ _ => RecognizedDecl.length_pos

theorem yields_blockStatement {brace : Token} (hbrace : brace.kind = .leftBrace)
    (h : Yields room (attempt room depth) fun opens ts _ s => RecognizedDecl depth opens ts s) :
    Yields room (do return .block (← block (declaration room depth) room))
      fun opens ts rest s => RecognizedStmt (depth + 1) opens (brace :: ts) rest s := by
  refine ((yields_block h).bind fun body => yields_pure (Stmt.block body)).mono ?_
  rintro opens _ rest _ ⟨_, _, body, rfl, ⟨_, endBrace, hend, rfl, parts, rfl, rfl, hparts⟩, rfl,
    rfl⟩
  rw [List.append_nil]
  exact ⟨false, ⟨.block hbrace (fun p hp => (hparts p hp).derives) hend,
    reads_block hbrace (fun p hp => (hparts p hp).derives.starts)
      (fun p hp => (hparts p hp).reads) hend⟩, nofun⟩

theorem yields_statement
    (hattempt : Yields room (attempt room depth) fun opens ts _ s =>
      RecognizedDecl depth opens ts s)
    (hstatement : Yields room (statement room depth) (RecognizedStmt depth)) :
    Yields room (statement room (depth + 1)) (RecognizedStmt (depth + 1)) := by
  rw [statement]
  refine (Yields.accept
    (Q := fun t opens ts rest s => RecognizedStmt (depth + 1) opens (t :: ts) rest s)
    (yields_expressionStatement depth room) fun t ht => Yields.of_le ?_ (Nat.sub_le room 1)).mono ?_
  · dsimp only
    split
    case h_1 hkind => exact yields_branchStatement hkind hstatement
    case h_2 hkind => exact yields_loopStatement hkind hstatement
    case h_3 hkind => exact yields_forStatement hkind hstatement
    case h_4 hkind => exact yields_printStatement hkind
    case h_5 hkind => exact yields_returnStatement hkind
    case h_6 =>
      have hbrace : t.kind = .leftBrace := by
        simp only [statementKinds, List.mem_cons, List.not_mem_nil] at ht
        tauto
      exact yields_blockStatement hbrace hattempt
  · rintro opens ts rest s (⟨-, hs, hread⟩ | ⟨t, us, -, rfl, h⟩)
    · exact ⟨false, ⟨.expression hs, reads_expression hs.starts hread⟩,
        fun h => absurd h Bool.false_ne_true⟩
    · exact h

/-! ## Declarations -/

theorem yields_parameter : Yields room (expect .identifier .noParameterName) fun _ ts _ p =>
    ts = [p] ∧ p.kind = .identifier := by
  rw [← bind_pure (expect .identifier .noParameterName)]
  refine (Yields.expect fun p _ => yields_pure p).mono ?_
  rintro _ _ _ _ ⟨p, _, hp, rfl, rfl, rfl⟩
  exact ⟨rfl, hp⟩

theorem yields_functionDeclaration
    (h : Yields room (attempt room depth) fun opens ts _ s => RecognizedDecl depth opens ts s) :
    Yields room (functionDeclaration (block (declaration room depth) room) room)
      fun opens ts _ s => ∀ keyword : Token, keyword.kind = .kwFun →
        RecognizedDecl (depth + 1) opens (keyword :: ts) s := by
  refine (Yields.expect fun name _ => Yields.expect fun _ _ =>
    (yields_parameter.listed _).bind fun params => Yields.expect fun _ _ => Yields.expect fun _ _ =>
      (yields_block h).withinFunction.bind fun body =>
        yields_pure (Stmt.function name params body)).mono ?_
  rintro opens _ rest _ ⟨name, _, hname, rfl, opening, _, hopening, rfl, ts, _, params, rfl,
    hparams, closing, _, hclosing, rfl, brace, _, hbrace, rfl, _, _, body, rfl,
    ⟨_, endBrace, hend, rfl, parts, rfl, rfl, hparts⟩, rfl, rfl⟩ keyword hkeyword
  -- the parameters as tokens, rather than as parts of one token each
  obtain ⟨list, hcommas, rfl, hlength, hlist⟩ := hparams (by simp)
  have htokens : list.map (·.1) = (list.map (·.2)).map ([·]) := by
    rw [List.map_map]
    exact List.map_congr_left fun p hp => (hlist p hp).1
  have hnames : ∀ p ∈ list.map (·.2), p.kind = .identifier := by
    simp only [List.mem_map]
    rintro _ ⟨p, hp, rfl⟩
    exact (hlist p hp).2
  have hcount : (list.map (·.2)).length ≤ 255 := by
    rw [List.length_map]
    omega
  have hbody : ∀ p ∈ parts, RecognizedForm true .declaration depth p.1 p.2 := hparts
  rw [htokens] at hcommas
  rw [List.append_nil]
  exact ⟨.function hkeyword hname hopening hnames hcommas hcount hclosing hbrace
      (fun p hp => (hbody p hp).derives) hend,
    reads_function hkeyword hname hopening hnames hcommas hcount hclosing hbrace
      (fun p hp => (hbody p hp).derives.starts) (fun p hp => (hbody p hp).reads) hend⟩

theorem yields_attempt
    (hattempt : Yields room (attempt room depth) fun opens ts _ s =>
      RecognizedDecl depth opens ts s)
    (hstatement : Yields room (statement room depth) (RecognizedStmt depth)) :
    Yields room (attempt room (depth + 1)) fun opens ts _ s =>
      RecognizedDecl (depth + 1) opens ts s := by
  have hvar := (yields_varDeclaration depth room).of_le (Nat.sub_le room 1)
  have hfunction := (yields_functionDeclaration hattempt).of_le (Nat.sub_le room 1)
  rw [attempt]
  refine (Yields.take (Yields.take hstatement hvar) hfunction).mono ?_
  rintro opens _ rest s (⟨-, ⟨-, dangling, hs, -⟩ | ⟨keyword, ts, hkeyword, rfl, hs, hread⟩⟩ |
    ⟨keyword, ts, hkeyword, rfl, hs⟩)
  · exact ⟨.statement hs.derives, reads_statement hs.derives.starts hs.reads⟩
  · exact ⟨.var (hs keyword hkeyword), reads_var hkeyword hread⟩
  · exact hs keyword hkeyword

/-- **What is read of a declaration or a statement follows the rules.** -/
theorem yields_forms (depth room : ℕ) :
    Yields room (attempt room depth) (fun opens ts _ s => RecognizedDecl depth opens ts s) ∧
      Yields room (statement room depth) (RecognizedStmt depth) := by
  induction depth with
  | zero =>
    exact ⟨yields_tooDeep.mono fun _ _ _ _ h => h.elim, yields_tooDeep.mono fun _ _ _ _ h => h.elim⟩
  | succ depth ih => exact ⟨yields_attempt ih.1 ih.2, yields_statement ih.1 ih.2⟩

end Reading

end Treewalk
