import Treewalk.Proofs.Grammar.Assembly

/-!
# Reading statements as the rules say

The lemmas of `Reads` for the rules of clauses, statements and
declarations: if the parts are read, so is the whole. A statement that ends
in an `if` without `else` is read in front of anything but an `else`.
-/

namespace Treewalk

open Grammar

namespace Reading

/-! ## Clauses -/

/-- The expression `e` is read from the tokens `ts` at a given depth. -/
structure ReadsExpr (depth : Nat) (ts : List Token) (e : Expr) : Prop where
  starts : Starts expressionStarts ts
  reads : Reads false (phrase .assignment depth) (extensions .assignment) ts e

theorem ReadsExpr.apply {depth : Nat} {ts : List Token} {e : Expr} (h : ReadsExpr depth ts e)
    (room : Nat) (hroom : ts.length ≤ room) {t : Token} (ht : t.kind ∉ extensions .assignment)
    (rest : List Token) (faults : Array Fault) (opens : Nat) :
    expression room depth ⟨ts ++ t :: rest, faults, opens⟩ =
      .ok e ⟨t :: rest, faults, opens⟩ :=
  h.reads room (t :: rest) faults opens hroom (stops_cons.2 ht) nofun

/-- No expression goes on with one of these. -/
theorem not_mem_extensions {t : Token}
    (h : t.kind = .semicolon ∨ t.kind = .rightParen ∨ t.kind = .comma) :
    t.kind ∉ extensions .assignment := by
  rcases h with h | h | h <;> rw [h] <;> decide

theorem reads_varDeclaration_plain {name semicolon : Token} (hname : name.kind = .identifier)
    (hsemicolon : semicolon.kind = .semicolon) (depth : Nat) :
    Reads false (fun room => varDeclaration (expression room depth)) [] [name, semicolon]
      (.var name none) := by
  intro room rest faults opens _ _ _
  have hstop : Stops [.equal] (semicolon :: rest) := stops_cons.2 (by simp [hsemicolon])
  dsimp only
  rw [varDeclaration_eq, List.cons_append, List.cons_append, List.nil_append,
    bind_ok (expect_cons hname rfl ..), bind_ok (ifTaken_of_stops hstop ..),
    bind_ok (expect_cons hsemicolon rfl ..)]
  rfl

theorem reads_varDeclaration_initial {depth : Nat} {name equals semicolon : Token}
    {ts : List Token} {e : Expr} (hname : name.kind = .identifier) (hequals : equals.kind = .equal)
    (he : ReadsExpr depth ts e) (hsemicolon : semicolon.kind = .semicolon) :
    Reads false (fun room => varDeclaration (expression room depth)) []
      (name :: equals :: (ts ++ [semicolon])) (.var name (some e)) := by
  intro room rest faults opens hroom _ _
  simp only [List.length_cons, List.length_append] at hroom
  have hread := he.apply room (by omega) (not_mem_extensions (.inl hsemicolon)) rest
    faults opens
  dsimp only
  rw [varDeclaration_eq, List.cons_append, List.cons_append, bind_ok (expect_cons hname rfl ..),
    List.append_assoc, List.singleton_append, bind_ok (ifTaken_cons hequals rfl hread),
    bind_ok (expect_cons hsemicolon rfl ..)]
  rfl

theorem reads_expressionStatement {depth : Nat} {ts : List Token} {e : Expr} {semicolon : Token}
    (he : ReadsExpr depth ts e) (hsemicolon : semicolon.kind = .semicolon) :
    Reads false (fun room => expressionStatement (expression room depth)) [] (ts ++ [semicolon])
      (.expression e) := by
  intro room rest faults opens hroom _ _
  rw [List.length_append] at hroom
  have hread := he.apply room (by omega) (not_mem_extensions (.inl hsemicolon)) rest
    faults opens
  dsimp only
  rw [expressionStatement, List.append_assoc, List.singleton_append, bind_ok hread,
    bind_ok (expect_cons hsemicolon rfl ..)]
  rfl

theorem unlessSeen_of_optional {depth : Nat} {ts : List Token} {e? : Option Expr}
    (h : Optional (ReadsExpr depth) ts e?) (room : Nat) (hroom : ts.length ≤ room) {t : Token}
    {kind : Kind} (hkind : t.kind = kind) (hext : kind ∉ extensions .assignment)
    (hstart : kind ∉ expressionStarts) (hmark : kind ≠ .endOfInput) (rest : List Token)
    (faults : Array Fault) (opens : Nat) :
    unlessSeen kind (expression room depth) ⟨ts ++ t :: rest, faults, opens⟩ =
      .ok e? ⟨t :: rest, faults, opens⟩ := by
  rw [unlessSeen, bind_ok (sees_apply ..)]
  cases h with
  | none => simp [hkind, hmark]
  | some he =>
    have hread := he.apply room hroom (hkind ▸ hext) rest faults opens
    obtain ⟨u, us, rfl, hu⟩ := he.starts
    have hne : u.kind ≠ kind := fun heq => hstart (heq ▸ hu)
    rw [if_neg (by simp [hne]), map_eq_bind, bind_ok hread]
    rfl

theorem reads_initialClause_none {semicolon : Token} (h : semicolon.kind = .semicolon)
    (depth : Nat) :
    Reads false (fun room => initialClause (expression room depth)) [] [semicolon] none := by
  intro room rest faults opens _ _ _
  dsimp only
  rw [initialClause, List.singleton_append, bind_ok (take_cons h rfl ..)]
  rfl

theorem reads_initialClause_var {depth : Nat} {keyword : Token} {ts : List Token} {s : Stmt}
    (hkeyword : keyword.kind = .kwVar)
    (h : Reads false (fun room => varDeclaration (expression room depth)) [] ts s) :
    Reads false (fun room => initialClause (expression room depth)) [] (keyword :: ts)
      (some s) := by
  intro room rest faults opens hroom hstop _
  have hread := h room rest faults opens (Nat.le_of_succ_le hroom) hstop nofun
  have hnone : Stops [.semicolon] (keyword :: (ts ++ rest)) := stops_cons.2 (by simp [hkeyword])
  dsimp only at hread ⊢
  rw [initialClause, List.cons_append, bind_ok (take_of_stops hnone ..), if_neg nofun,
    bind_ok (take_cons hkeyword rfl ..), if_pos rfl, bind_ok hread]
  rfl

theorem reads_initialClause_expression {depth : Nat} {ts : List Token} {s : Stmt}
    (hstarts : Starts expressionStarts ts)
    (h : Reads false (fun room => expressionStatement (expression room depth)) [] ts s) :
    Reads false (fun room => initialClause (expression room depth)) [] ts (some s) := by
  intro room rest faults opens hroom hstop _
  have hread := h room rest faults opens hroom hstop nofun
  have hnone : Stops [.semicolon] (ts ++ rest) := hstarts.stops (by decide) rest
  have hvar : Stops [.kwVar] (ts ++ rest) := hstarts.stops (by decide) rest
  dsimp only at hread ⊢
  rw [initialClause, bind_ok (take_of_stops hnone ..), if_neg nofun,
    bind_ok (take_of_stops hvar ..), if_neg nofun, bind_ok hread]
  rfl

/-! ## Statements -/

/-- How a declaration or a statement is read. -/
def form : Form → Nat → Nat → Reading Stmt
  | .declaration, depth, room => attempt room depth
  | .statement _, depth, room => statement room depth

/-- The kinds that must not come behind a declaration or a statement. -/
def follow : Form → List Kind
  | .statement false => []
  | _ => [.kwElse]

/-- The declaration or statement `s` is read from the tokens `ts` at a given
depth. -/
abbrev ReadsForm (inside : Bool) (f : Form) (depth : Nat) (ts : List Token) (s : Stmt) : Prop :=
  Reads inside (form f depth) (follow f) ts s

/-- A keyword or a brace decides what statement comes. -/
theorem statement_cons {t : Token} (h : t.kind ∈ statementKinds) (room depth : Nat)
    (rest : List Token) (faults : Array Fault) (opens : Nat) :
    statement room (depth + 1) ⟨t :: rest, faults, opens⟩ =
      (match t.kind with
        | .kwIf => branchStatement (expression room depth) (statement room depth)
        | .kwWhile => loopStatement (expression room depth) (statement room depth)
        | .kwFor => forStatement (expression room depth) (statement room depth)
        | .kwPrint => printStatement (expression room depth)
        | .kwReturn => returnStatement t (expression room depth)
        | _ => do return .block (← block (declaration room depth) room))
        ⟨rest, faults, opens⟩ := by
  rw [statement]
  exact bind_ok (accept_cons h rfl ..)

theorem follow_subset (f : Form) : ∀ k ∈ follow f, k ∈ [Kind.kwElse] := by
  rcases f with _ | (_ | _) <;> decide

theorem reads_branch {inside dangling : Bool} {depth : Nat} {keyword opening closing : Token}
    {cs ts : List Token} {condition : Expr} {yes : Stmt} (hkeyword : keyword.kind = .kwIf)
    (hopening : opening.kind = .leftParen) (hcondition : ReadsExpr depth cs condition)
    (hclosing : closing.kind = .rightParen)
    (hyes : ReadsForm inside (.statement dangling) depth ts yes) :
    ReadsForm inside (.statement true) (depth + 1) (keyword :: opening :: (cs ++ closing :: ts))
      (.branch condition yes none) := by
  intro room rest faults opens hroom hstop hopen
  simp only [List.length_cons, List.length_append] at hroom
  have hread := hcondition.apply room (by omega)
    (not_mem_extensions (.inr (.inl hclosing))) (ts ++ rest) faults opens
  -- no `else` may come behind the whole, so none comes behind the branch
  have hbranch := hyes room rest faults opens (by omega) (hstop.mono (follow_subset _)) hopen
  change statement room depth _ = _ at hbranch
  change statement room (depth + 1) _ = _
  rw [List.cons_append, statement_cons (by rw [hkeyword]; decide), hkeyword]
  dsimp only
  rw [branchStatement_eq, List.cons_append, bind_ok (expect_cons hopening rfl ..),
    List.append_assoc, List.cons_append, bind_ok hread, bind_ok (expect_cons hclosing rfl ..),
    bind_ok hbranch, bind_ok (ifTaken_of_stops hstop ..)]
  rfl

theorem reads_branchElse {inside dangling : Bool} {depth : Nat}
    {keyword opening closing keywordElse : Token} {cs ts us : List Token} {condition : Expr}
    {yes no : Stmt} (hkeyword : keyword.kind = .kwIf) (hopening : opening.kind = .leftParen)
    (hcondition : ReadsExpr depth cs condition) (hclosing : closing.kind = .rightParen)
    (hyes : ReadsForm inside (.statement false) depth ts yes)
    (helse : keywordElse.kind = .kwElse)
    (hno : ReadsForm inside (.statement dangling) depth us no) :
    ReadsForm inside (.statement dangling) (depth + 1)
      (keyword :: opening :: (cs ++ closing :: (ts ++ keywordElse :: us)))
      (.branch condition yes (some no)) := by
  intro room rest faults opens hroom hstop hopen
  simp only [List.length_cons, List.length_append] at hroom
  have hread := hcondition.apply room (by omega)
    (not_mem_extensions (.inr (.inl hclosing))) (ts ++ keywordElse :: (us ++ rest)) faults opens
  -- the first branch is complete, so it leaves the `else` alone
  have hbranch := hyes room (keywordElse :: (us ++ rest)) faults opens (by omega)
    (fun _ _ => List.not_mem_nil) hopen
  have hother := hno room rest faults opens (by omega) hstop hopen
  change statement room depth _ = _ at hbranch hother
  change statement room (depth + 1) _ = _
  rw [List.cons_append, statement_cons (by rw [hkeyword]; decide), hkeyword]
  dsimp only
  rw [branchStatement_eq, List.cons_append, bind_ok (expect_cons hopening rfl ..),
    List.append_assoc, List.cons_append, List.append_assoc, List.cons_append, bind_ok hread,
    bind_ok (expect_cons hclosing rfl ..), bind_ok hbranch, bind_ok (ifTaken_cons helse rfl hother)]
  rfl

theorem reads_loop {inside dangling : Bool} {depth : Nat} {keyword opening closing : Token}
    {cs ts : List Token} {condition : Expr} {body : Stmt} (hkeyword : keyword.kind = .kwWhile)
    (hopening : opening.kind = .leftParen) (hcondition : ReadsExpr depth cs condition)
    (hclosing : closing.kind = .rightParen)
    (hbody : ReadsForm inside (.statement dangling) depth ts body) :
    ReadsForm inside (.statement dangling) (depth + 1)
      (keyword :: opening :: (cs ++ closing :: ts)) (.loop condition body) := by
  intro room rest faults opens hroom hstop hopen
  simp only [List.length_cons, List.length_append] at hroom
  have hread := hcondition.apply room (by omega)
    (not_mem_extensions (.inr (.inl hclosing))) (ts ++ rest) faults opens
  have hloop := hbody room rest faults opens (by omega) hstop hopen
  change statement room depth _ = _ at hloop
  change statement room (depth + 1) _ = _
  rw [List.cons_append, statement_cons (by rw [hkeyword]; decide), hkeyword]
  dsimp only
  rw [loopStatement, List.cons_append, bind_ok (expect_cons hopening rfl ..), List.append_assoc,
    List.cons_append, bind_ok hread, bind_ok (expect_cons hclosing rfl ..), bind_ok hloop]
  rfl

/-- The tree that a `for` is read into. -/
theorem forLoop_eq_forTree (initial : Option Stmt) (condition step : Option Expr) (body : Stmt) :
    Stmt.forLoop initial condition step body = forTree initial condition step body := by
  cases initial <;> cases condition <;> cases step <;> rfl

theorem reads_forLoop {inside dangling : Bool} {depth : Nat}
    {keyword opening semicolon closing : Token} {is cs ss ts : List Token}
    {initial : Option Stmt} {condition step : Option Expr} {body : Stmt}
    (hkeyword : keyword.kind = .kwFor) (hopening : opening.kind = .leftParen)
    (hinitial : Reads false (fun room => initialClause (expression room depth)) [] is initial)
    (hcondition : Optional (ReadsExpr depth) cs condition)
    (hsemicolon : semicolon.kind = .semicolon) (hstep : Optional (ReadsExpr depth) ss step)
    (hclosing : closing.kind = .rightParen)
    (hbody : ReadsForm inside (.statement dangling) depth ts body) :
    ReadsForm inside (.statement dangling) (depth + 1)
      (keyword :: opening :: (is ++ (cs ++ semicolon :: (ss ++ closing :: ts))))
      (forTree initial condition step body) := by
  intro room rest faults opens hroom hstop hopen
  simp only [List.length_cons, List.length_append] at hroom
  have hfirst := hinitial room (cs ++ semicolon :: (ss ++ closing :: (ts ++ rest))) faults opens
    (by omega) (fun _ _ => List.not_mem_nil) nofun
  have hsecond := unlessSeen_of_optional hcondition room (by omega) hsemicolon
    (by decide) (by decide) (by decide) (ss ++ closing :: (ts ++ rest)) faults opens
  have hthird := unlessSeen_of_optional hstep room (by omega) hclosing
    (by decide) (by decide) (by decide) (ts ++ rest) faults opens
  have hloop := hbody room rest faults opens (by omega) hstop hopen
  change initialClause (expression room depth) _ = _ at hfirst
  change statement room depth _ = _ at hloop
  change statement room (depth + 1) _ = _
  rw [List.cons_append, statement_cons (by rw [hkeyword]; decide), hkeyword]
  simp only [List.cons_append, List.append_assoc]
  rw [forStatement_eq, bind_ok (expect_cons hopening rfl ..), bind_ok hfirst, bind_ok hsecond,
    bind_ok (expect_cons hsemicolon rfl ..), bind_ok hthird, bind_ok (expect_cons hclosing rfl ..),
    bind_ok hloop, forLoop_eq_forTree]
  rfl

theorem reads_print {inside : Bool} {depth : Nat} {keyword semicolon : Token} {ts : List Token}
    {e : Expr} (hkeyword : keyword.kind = .kwPrint) (he : ReadsExpr depth ts e)
    (hsemicolon : semicolon.kind = .semicolon) :
    ReadsForm inside (.statement false) (depth + 1) (keyword :: (ts ++ [semicolon]))
      (.print e) := by
  intro room rest faults opens hroom _ _
  simp only [List.length_cons, List.length_append] at hroom
  have hread := he.apply room (by omega) (not_mem_extensions (.inl hsemicolon)) rest
    faults opens
  change statement room (depth + 1) _ = _
  rw [List.cons_append, statement_cons (by rw [hkeyword]; decide), hkeyword]
  dsimp only
  rw [printStatement, List.append_assoc, List.singleton_append, bind_ok hread,
    bind_ok (expect_cons hsemicolon rfl ..)]
  rfl

theorem reads_ret {depth : Nat} {keyword semicolon : Token} {ts : List Token}
    {e? : Option Expr} (hkeyword : keyword.kind = .kwReturn)
    (he : Optional (ReadsExpr depth) ts e?) (hsemicolon : semicolon.kind = .semicolon) :
    ReadsForm true (.statement false) (depth + 1) (keyword :: (ts ++ [semicolon]))
      (.ret keyword e?) := by
  intro room rest faults opens hroom _ hopen
  simp only [List.length_cons, List.length_append] at hroom
  have hread := unlessSeen_of_optional he room (by omega) hsemicolon
    (by decide) (by decide) (by decide) rest faults opens
  have hcheck : checkReturn keyword ⟨ts ++ semicolon :: rest, faults, opens⟩ =
      .ok () ⟨ts ++ semicolon :: rest, faults, opens⟩ :=
    if_neg (Nat.ne_of_gt (hopen rfl))
  change statement room (depth + 1) _ = _
  rw [List.cons_append, statement_cons (by rw [hkeyword]; decide), hkeyword]
  dsimp only
  rw [returnStatement_eq, List.append_assoc, List.singleton_append, bind_ok hcheck,
    bind_ok hread, bind_ok (expect_cons hsemicolon rfl ..)]
  rfl

theorem reads_expression {inside : Bool} {depth : Nat} {ts : List Token} {s : Stmt}
    (hstarts : Starts expressionStarts ts)
    (h : Reads false (fun room => expressionStatement (expression room depth)) [] ts s) :
    ReadsForm inside (.statement false) (depth + 1) ts s := by
  intro room rest faults opens hroom hstop _
  have hread := h room rest faults opens hroom hstop nofun
  have hnone : Stops statementKinds (ts ++ rest) := hstarts.stops (by decide) rest
  change statement room (depth + 1) _ = _
  rw [statement, bind_ok (accept_of_stops hnone ..)]
  exact hread

/-! ## Declarations -/

/-- The kinds that a statement can start with. -/
def statementStarts : List Kind := statementKinds ++ expressionStarts

/-- The kinds that a declaration can start with. -/
def declarationStarts : List Kind := .kwFun :: .kwVar :: statementStarts

theorem declaration_of_reads {inside : Bool} {depth room : Nat} {ts rest : List Token} {s : Stmt}
    (h : ReadsForm inside .declaration depth ts s) (hroom : ts.length ≤ room)
    (hstop : Stops [.kwElse] rest) (faults : Array Fault) {opens : Nat}
    (hopen : inside = true → 0 < opens) :
    declaration room depth ⟨ts ++ rest, faults, opens⟩ = (some s, ⟨rest, faults, opens⟩) := by
  have hread := h room rest faults opens hroom hstop hopen
  change attempt room depth _ = _ at hread
  rw [declaration_eq, recovering, hread]

/-- Declarations in a row take no more room than their tokens. -/
theorem length_parts_le_flatMap {kinds : List Kind} {parts : List (List Token × Stmt)}
    (hstarts : ∀ p ∈ parts, Starts kinds p.1) :
    parts.length ≤ (parts.flatMap (·.1)).length ∧
      ∀ p ∈ parts, p.1.length ≤ (parts.flatMap (·.1)).length := by
  constructor
  · induction parts with
    | nil => exact Nat.le_refl 0
    | cons part parts ih =>
      have hpos := (hstarts part (by simp)).length_pos
      have hrest := ih fun p hp => hstarts p (by simp [hp])
      simp only [List.flatMap_cons, List.length_append, List.length_cons]
      omega
  · intro p hp
    exact (List.sublist_flatten_of_mem (List.mem_map_of_mem hp)).length_le

/-- **Declarations in a row are read** one by one, up to where they stop. -/
theorem declarations_parts {stop : Cursor → Bool} {item : Cursor → Option Stmt × Cursor}
    (faults : Array Fault) (opens : Nat) {rest : List Token}
    (hend : stop ⟨rest, faults, opens⟩ = true) (helse : Stops [.kwElse] rest)
    (parts : List (List Token × Stmt)) (room : Nat) (done : List Stmt)
    (hroom : parts.length ≤ room) (hstarts : ∀ p ∈ parts, Starts declarationStarts p.1)
    (hgo : ∀ p ∈ parts, ∀ rest', stop ⟨p.1 ++ rest', faults, opens⟩ = false)
    (hitem : ∀ p ∈ parts, ∀ rest', Stops [.kwElse] rest' →
      item ⟨p.1 ++ rest', faults, opens⟩ = (some p.2, ⟨rest', faults, opens⟩)) :
    declarations stop item room done ⟨parts.flatMap (·.1) ++ rest, faults, opens⟩ =
      (done.reverse ++ parts.map (·.2), ⟨rest, faults, opens⟩) := by
  induction parts generalizing room done with
  | nil =>
    cases room with
    | zero => simp [declarations]
    | succ room => simp [declarations, hend]
  | cons part parts ih =>
    obtain ⟨room, rfl⟩ : ∃ r, room = r + 1 :=
      ⟨room - 1, by simp only [List.length_cons] at hroom; omega⟩
    -- no declaration starts with `else`, so the one in front of it ends there
    have hnext : Stops [.kwElse] (parts.flatMap (·.1) ++ rest) := by
      cases parts with
      | nil => exact helse
      | cons next parts =>
        rw [List.flatMap_cons, List.append_assoc]
        exact (hstarts next (by simp)).stops (by decide) _
    have hrest := ih room (part.2 :: done) (Nat.le_of_succ_le_succ hroom)
      (fun p hp => hstarts p (by simp [hp])) (fun p hp => hgo p (by simp [hp]))
      (fun p hp => hitem p (by simp [hp]))
    rw [List.flatMap_cons, List.append_assoc, declarations, hgo part (by simp), if_neg nofun,
      hitem part (by simp) _ hnext]
    simpa using hrest

theorem block_parts {inside : Bool} {depth : Nat} {endBrace : Token}
    {parts : List (List Token × Stmt)} (hbrace : endBrace.kind = .rightBrace)
    (hstarts : ∀ p ∈ parts, Starts declarationStarts p.1)
    (hparts : ∀ p ∈ parts, ReadsForm inside .declaration depth p.1 p.2) (room : Nat)
    (hroom : (parts.flatMap (·.1)).length ≤ room) (rest : List Token) (faults : Array Fault)
    (opens : Nat) (hopen : inside = true → 0 < opens) :
    block (declaration room depth) room
        ⟨parts.flatMap (·.1) ++ endBrace :: rest, faults, opens⟩ =
      .ok (parts.map (·.2)) ⟨rest, faults, opens⟩ := by
  obtain ⟨hcount, hlength⟩ := length_parts_le_flatMap hstarts
  have hbody : body (declaration room depth) room
      ⟨parts.flatMap (·.1) ++ endBrace :: rest, faults, opens⟩ =
        .ok (parts.map (·.2)) ⟨endBrace :: rest, faults, opens⟩ := by
    rw [body, declarations_parts faults opens (by simp [closesBlock, hbrace])
      (stops_cons.2 (by simp [hbrace])) parts room [] (by omega) hstarts ?_ ?_]
    · rfl
    · intro p hp rest'
      have hgo := (hstarts p hp).atEnd (by decide) rest' faults opens
      obtain ⟨t, us, heq, ht⟩ := hstarts p hp
      have hne : t.kind ≠ .rightBrace := fun h => absurd (h ▸ ht) (by decide)
      rw [closesBlock, hgo]
      simpa [heq] using hne
    · intro p hp rest' hstop
      have hle := hlength p hp
      exact declaration_of_reads (hparts p hp) (by omega) hstop faults hopen
  rw [block_eq, bind_ok hbody, bind_ok (expect_cons hbrace rfl ..)]
  rfl

theorem reads_block {inside : Bool} {depth : Nat} {brace endBrace : Token}
    {parts : List (List Token × Stmt)} (hbrace : brace.kind = .leftBrace)
    (hstarts : ∀ p ∈ parts, Starts declarationStarts p.1)
    (hparts : ∀ p ∈ parts, ReadsForm inside .declaration depth p.1 p.2)
    (hend : endBrace.kind = .rightBrace) :
    ReadsForm inside (.statement false) (depth + 1)
      (brace :: (parts.flatMap (·.1) ++ [endBrace])) (.block (parts.map (·.2))) := by
  intro room rest faults opens hroom _ hopen
  simp only [List.length_cons, List.length_append] at hroom
  have hread := block_parts hend hstarts hparts room (by omega) rest faults opens hopen
  change statement room (depth + 1) _ = _
  rw [List.cons_append, statement_cons (by rw [hbrace]; decide), hbrace]
  dsimp only
  rw [List.append_assoc, List.singleton_append, bind_ok hread]
  rfl

theorem withinFunction_of_ok {α : Type} {m : Reading α} {ts rest : List Token}
    {faults faults' : Array Fault} {opens : Nat} {a : α}
    (h : m ⟨ts, faults, opens + 1⟩ = .ok a ⟨rest, faults', opens + 1⟩) :
    withinFunction m ⟨ts, faults, opens⟩ = .ok a ⟨rest, faults', opens⟩ := by
  simp only [withinFunction, h, Nat.add_sub_cancel]

theorem listed_params {params ts : List Token} {closing : Token}
    (hparams : ∀ p ∈ params, p.kind = .identifier) (hcommas : Commas (params.map ([·])) ts)
    (hlength : params.length ≤ 255) (hclosing : closing.kind = .rightParen) (room : Nat)
    (hroom : ts.length ≤ room) (rest : List Token) (faults : Array Fault) (opens : Nat) :
    listed (expect .identifier .noParameterName) .tooManyParameters room
        ⟨ts ++ closing :: rest, faults, opens⟩ =
      .ok params ⟨closing :: rest, faults, opens⟩ := by
  -- each parameter is a part of one token
  let parts := params.map fun p => ([p], p)
  have htokens : parts.map (·.1) = params.map ([·]) := List.map_map
  have hnames : parts.map (·.2) = params := List.map_map.trans (List.map_id _)
  have hparts : ∀ p ∈ parts, Starts [.identifier] p.1 ∧
      Reads false (fun _ => expect .identifier .noParameterName) [] p.1 p.2 := by
    simp only [parts, List.mem_map]
    rintro _ ⟨p, hp, rfl⟩
    exact ⟨⟨p, [], rfl, by simp [hparams p hp]⟩, reads_expect (hparams p hp) rfl _⟩
  have hread := reads_listed (by decide) (by decide) (by decide) .tooManyParameters hclosing rest
    faults opens hparts (htokens ▸ hcommas) (by simpa [parts] using hlength) hroom
  rwa [hnames] at hread

theorem reads_function {inside : Bool} {depth : Nat}
    {keyword name opening closing brace endBrace : Token} {ts params : List Token}
    {parts : List (List Token × Stmt)} (hkeyword : keyword.kind = .kwFun)
    (hname : name.kind = .identifier) (hopening : opening.kind = .leftParen)
    (hparams : ∀ p ∈ params, p.kind = .identifier) (hcommas : Commas (params.map ([·])) ts)
    (hlength : params.length ≤ 255) (hclosing : closing.kind = .rightParen)
    (hbrace : brace.kind = .leftBrace) (hstarts : ∀ p ∈ parts, Starts declarationStarts p.1)
    (hparts : ∀ p ∈ parts, ReadsForm true .declaration depth p.1 p.2)
    (hend : endBrace.kind = .rightBrace) :
    ReadsForm inside .declaration (depth + 1)
      (keyword :: name :: opening :: (ts ++ closing :: brace ::
        (parts.flatMap (·.1) ++ [endBrace])))
      (.function name params (parts.map (·.2))) := by
  intro room rest faults opens hroom _ _
  simp only [List.length_cons, List.length_append] at hroom
  have hlist := listed_params hparams hcommas hlength hclosing room (by omega)
    (brace :: (parts.flatMap (·.1) ++ endBrace :: rest)) faults opens
  -- in the body one more function is open, so `return` is allowed there
  have hbody := block_parts hend hstarts hparts room (by omega) rest faults (opens + 1)
    fun _ => Nat.succ_pos opens
  change attempt room (depth + 1) _ = _
  simp only [List.cons_append, List.append_assoc, List.nil_append]
  rw [attempt, bind_ok (take_cons hkeyword rfl ..), if_pos rfl, functionDeclaration,
    bind_ok (expect_cons hname rfl ..), bind_ok (expect_cons hopening rfl ..), bind_ok hlist,
    bind_ok (expect_cons hclosing rfl ..), bind_ok (expect_cons hbrace rfl ..),
    bind_ok (withinFunction_of_ok hbody)]
  rfl

theorem reads_var {inside : Bool} {depth : Nat} {keyword : Token} {ts : List Token} {s : Stmt}
    (hkeyword : keyword.kind = .kwVar)
    (h : Reads false (fun room => varDeclaration (expression room depth)) [] ts s) :
    ReadsForm inside .declaration (depth + 1) (keyword :: ts) s := by
  intro room rest faults opens hroom _ _
  have hread := h room rest faults opens (Nat.le_of_succ_le hroom)
    (fun _ _ => List.not_mem_nil) nofun
  have hnone : Stops [.kwFun] (keyword :: (ts ++ rest)) := stops_cons.2 (by simp [hkeyword])
  change attempt room (depth + 1) _ = _
  rw [attempt, List.cons_append, bind_ok (take_of_stops hnone ..), if_neg nofun,
    bind_ok (take_cons hkeyword rfl ..), if_pos rfl]
  exact hread

theorem reads_statement {inside dangling : Bool} {depth : Nat} {ts : List Token} {s : Stmt}
    (hstarts : Starts statementStarts ts)
    (h : ReadsForm inside (.statement dangling) depth ts s) :
    ReadsForm inside .declaration (depth + 1) ts s := by
  intro room rest faults opens hroom hstop hopen
  have hread := h room rest faults opens hroom (hstop.mono (follow_subset _)) hopen
  have hfun : Stops [.kwFun] (ts ++ rest) := hstarts.stops (by decide) rest
  have hvar : Stops [.kwVar] (ts ++ rest) := hstarts.stops (by decide) rest
  change attempt room (depth + 1) _ = _
  rw [attempt, bind_ok (take_of_stops hfun ..), if_neg nofun, bind_ok (take_of_stops hvar ..),
    if_neg nofun]
  exact hread

end Reading

end Treewalk
