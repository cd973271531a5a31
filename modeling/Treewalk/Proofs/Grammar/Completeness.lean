import Treewalk.Proofs.Grammar.AssemblyStatements
import Mathlib.Order.Filter.AtTopBot.Basic
import Mathlib.Order.Filter.Finite

/-!
# What the rules derive is read

Every derivation is read at all depths that are large enough for it, as the
tree that the derivation carries. Derivations have first tokens of a few
kinds only, which is what lets a reader tell them apart by one token.
-/

namespace Treewalk

namespace Grammar

open Reading Filter

/-! ## First tokens -/

/-- The kinds that a phrase can start with. -/
def starts : Phrase → List Kind
  | .call => callStarts
  | .primary => callStarts
  | _ => expressionStarts

theorem starts_of_chain {p q : Phrase} {operators : List Kind}
    {node : Expr → Token → Expr → Expr} (h : Chain p q operators node) : starts q = starts p := by
  cases h <;> rfl

theorem starts_cons {kinds : List Kind} {t : Token} (h : t.kind ∈ kinds) (ts : List Token) :
    Starts kinds (t :: ts) := ⟨t, ts, rfl, h⟩

theorem Starts.append {kinds : List Kind} {ts : List Token} (h : Starts kinds ts)
    (us : List Token) : Starts kinds (ts ++ us) := by
  obtain ⟨t, ts, rfl, hkind⟩ := h
  exact starts_cons hkind (ts ++ us)

theorem Starts.mono {kinds kinds' : List Kind} {ts : List Token} (h : Starts kinds ts)
    (hsub : ∀ k ∈ kinds, k ∈ kinds') : Starts kinds' ts := by
  obtain ⟨t, ts, rfl, hkind⟩ := h
  exact starts_cons (hsub _ hkind) ts

theorem Derives.starts {p : Phrase} {ts : List Token} {e : Expr} (h : Derives p ts e) :
    Starts (starts p) ts := by
  induction h with
  | assign hname _ _ _ => exact starts_cons (by rw [hname]; decide) _
  | assignment _ ih => exact ih
  | chain hchain _ _ _ ih _ => exact Starts.append (starts_of_chain hchain ▸ ih) _
  | unary hoperator _ _ =>
    refine starts_cons ?_ _
    rcases hoperator with h | h <;> rw [h] <;> decide
  | operand _ ih => exact Starts.mono ih (by decide)
  | call _ _ _ ih _ => exact Starts.append ih _
  | false h | true h | nil h | number h | string h | name h =>
    exact starts_cons (by rw [h]; decide) _
  | grouping h _ _ _ => exact starts_cons (by rw [h]; decide) _

theorem VarDecl.starts {ts : List Token} {s : Stmt} (h : VarDecl ts s) : Starts [.kwVar] ts := by
  cases h with
  | plain h _ _ => exact starts_cons (by simp [h]) _
  | initial h _ _ _ _ => exact starts_cons (by simp [h]) _

theorem ExprStmt.starts {ts : List Token} {s : Stmt} (h : ExprStmt ts s) :
    Starts expressionStarts ts := by
  cases h with
  | mk h _ => exact Starts.append h.starts _

/-- The kinds that a declaration or a statement can start with. -/
def formStarts : Form → List Kind
  | .declaration => declarationStarts
  | .statement _ => statementStarts

theorem starts_statement {t : Token} (h : t.kind ∈ statementKinds) (dangling : Bool)
    (ts : List Token) : Starts (formStarts (.statement dangling)) (t :: ts) :=
  starts_cons (List.mem_append_left _ h) ts

theorem DerivesStmt.starts {inside : Bool} {f : Form} {ts : List Token} {s : Stmt}
    (h : DerivesStmt inside f ts s) : Starts (formStarts f) ts := by
  induction h with
  | function h _ _ _ _ _ _ _ _ _ _ => exact starts_cons (by rw [h]; decide) _
  | var h => exact Starts.mono h.starts (by decide)
  | @statement _ dangling _ _ _ ih =>
    have hsub : ∀ k ∈ statementStarts, k ∈ declarationStarts := by decide
    exact Starts.mono ih hsub
  | branch h _ _ _ _ _ | loop h _ _ _ _ _ | branchElse h _ _ _ _ _ _ _ _
  | forLoop h _ _ _ _ _ _ _ _ | print h _ _ | ret h _ _ | block h _ _ _ =>
    exact starts_statement (by rw [h]; decide) _ _
  | expression h => exact Starts.mono h.starts (by decide)

/-! ## Expressions -/

/-- What holds some steps deeper than where `P` does holds at all large
depths if `P` does. -/
theorem eventually_add {P Q : ℕ → Prop} (k : ℕ) (hP : ∀ᶠ d in atTop, P d)
    (h : ∀ d, P d → Q (d + k)) : ∀ᶠ d in atTop, Q d := by
  rw [← map_add_atTop_eq_nat k, eventually_map]
  exact hP.mono h

theorem eventually_forall_mem {α : Type} {P : α → ℕ → Prop} {xs : List α}
    (h : ∀ x ∈ xs, ∀ᶠ d in atTop, P x d) : ∀ᶠ d in atTop, ∀ x ∈ xs, P x d :=
  (eventually_all_finite xs.finite_toSet).2 h

/-- An operand is a chain without links. -/
theorem reads_of_tighter {p q : Phrase} {operators : List Kind}
    {node : Expr → Token → Expr → Expr} (hchain : Chain p q operators node) {depth : ℕ}
    {ts : List Token} {e : Expr} (h : Reads false (phrase q depth) (extensions q) ts e) :
    Reads false (phrase p (depth + 1)) (extensions p) ts e := by
  have hread := @reads_chain p q operators node hchain depth ts e [] h
    (fun _ hl => absurd hl List.not_mem_nil) (fun _ hl => absurd hl List.not_mem_nil)
  simpa using hread

/-- A single token is an operand without calls behind it. -/
theorem reads_operand_single {t : Token} {e : Expr} (h : Derives .primary [t] e) (depth : ℕ) :
    Reads false (phrase .unary (depth + 2)) (extensions .unary) [t] e := by
  have hcall : Reads false (phrase .call depth) (extensions .call) [t] e := by
    have hread := @reads_call depth [t] e [] (reads_single h depth)
      (fun _ ha => absurd ha List.not_mem_nil) (fun _ ha => absurd ha List.not_mem_nil)
    simpa using hread
  exact reads_operand h.starts hcall

/-- An operand is an operation of every level. -/
theorem reads_logicOr_of_unary {depth : ℕ} {ts : List Token} {e : Expr}
    (h : Reads false (phrase .unary depth) (extensions .unary) ts e) :
    Reads false (phrase .logicOr (depth + 6)) (extensions .logicOr) ts e :=
  reads_of_tighter .logicOr <| reads_of_tighter .logicAnd <| reads_of_tighter .equality <|
    reads_of_tighter .comparison <| reads_of_tighter .term <| reads_of_tighter .factor h

theorem reads_name {t : Token} (h : t.kind = .identifier) (depth : ℕ) :
    Reads false (phrase .logicOr (depth + 8)) (extensions .logicOr) [t] (.name t) :=
  reads_logicOr_of_unary (reads_operand_single (.name h) depth)

/-- **A derivation of an expression is read** at all large depths. -/
theorem eventually_reads {p : Phrase} {ts : List Token} {e : Expr} (h : Derives p ts e) :
    ∀ᶠ d in atTop, Reads false (phrase p d) (extensions p) ts e := by
  induction h with
  | @assign name _ _ _ hname hequals _ ih =>
    -- the target is derived as a name, but read as an operation first
    have htarget : ∀ᶠ d in atTop,
        Reads false (phrase .logicOr d) (extensions .logicOr) [name] (.name name) :=
      eventually_add 8 ih fun d _ => reads_name hname d
    exact eventually_add 1 (htarget.and ih) fun d hd => reads_assign hequals hd.1 hd.2
  | assignment _ ih => exact eventually_add 1 ih fun _ => reads_assignment
  | chain hchain _ hoperators _ ih ihs =>
    exact eventually_add 1 (ih.and (eventually_forall_mem ihs)) fun d hd =>
      reads_chain hchain hd.1 hoperators hd.2
  | unary hoperator _ ih => exact eventually_add 1 ih fun _ => reads_unary hoperator
  | operand h ih => exact eventually_add 2 ih fun _ => reads_operand h.starts
  | call _ hlists hparts ih ihs =>
    have hall := eventually_forall_mem fun a ha => eventually_forall_mem (ihs a ha)
    filter_upwards [ih, hall] with d hcallee hd
    exact reads_call hcallee hlists fun a ha p hp => ⟨(hparts a ha p hp).starts, hd a ha p hp⟩
  | false h => exact Eventually.of_forall (reads_single (.false h))
  | true h => exact Eventually.of_forall (reads_single (.true h))
  | nil h => exact Eventually.of_forall (reads_single (.nil h))
  | number h => exact Eventually.of_forall (reads_single (.number h))
  | string h => exact Eventually.of_forall (reads_single (.string h))
  | name h => exact Eventually.of_forall (reads_single (.name h))
  | grouping hopening _ hclosing ih => exact ih.mono fun _ => reads_grouping hopening hclosing

theorem eventually_readsExpr {ts : List Token} {e : Expr} (h : DerivesExpr ts e) :
    ∀ᶠ d in atTop, ReadsExpr d ts e :=
  (eventually_reads h).mono fun _ hread => ⟨h.starts, hread⟩

theorem eventually_optional {ts : List Token} {e? : Option Expr}
    (h : Optional DerivesExpr ts e?) : ∀ᶠ d in atTop, Optional (ReadsExpr d) ts e? := by
  cases h with
  | none => exact Eventually.of_forall fun _ => .none
  | some h => exact (eventually_readsExpr h).mono fun _ => .some

/-! ## Statements -/

theorem eventually_reads_varDecl {ts : List Token} {s : Stmt} (h : VarDecl ts s) :
    ∃ keyword us, ts = keyword :: us ∧ keyword.kind = .kwVar ∧ ∀ᶠ d in atTop,
      Reads false (fun room => varDeclaration (expression room d)) [] us s := by
  cases h with
  | plain hkeyword hname hsemicolon =>
    exact ⟨_, _, rfl, hkeyword, Eventually.of_forall fun d =>
      reads_varDeclaration_plain hname hsemicolon d⟩
  | initial hkeyword hname hequals h hsemicolon =>
    exact ⟨_, _, rfl, hkeyword, (eventually_readsExpr h).mono fun _ hd =>
      reads_varDeclaration_initial hname hequals hd hsemicolon⟩

theorem eventually_reads_exprStmt {ts : List Token} {s : Stmt} (h : ExprStmt ts s) :
    ∀ᶠ d in atTop, Reads false (fun room => expressionStatement (expression room d)) [] ts s := by
  cases h with
  | mk h hsemicolon =>
    exact (eventually_readsExpr h).mono fun _ hd => reads_expressionStatement hd hsemicolon

theorem eventually_reads_initial {ts : List Token} {s? : Option Stmt} (h : Initial ts s?) :
    ∀ᶠ d in atTop, Reads false (fun room => initialClause (expression room d)) [] ts s? := by
  cases h with
  | none h => exact Eventually.of_forall fun d => reads_initialClause_none h d
  | var h =>
    obtain ⟨keyword, us, rfl, hkeyword, hread⟩ := eventually_reads_varDecl h
    exact hread.mono fun _ => reads_initialClause_var hkeyword
  | expression h =>
    exact (eventually_reads_exprStmt h).mono fun _ => reads_initialClause_expression h.starts

/-- **A derivation of a declaration or a statement is read** at all large
depths. -/
theorem eventually_readsForm {inside : Bool} {f : Form} {ts : List Token} {s : Stmt}
    (h : DerivesStmt inside f ts s) : ∀ᶠ d in atTop, ReadsForm inside f d ts s := by
  induction h with
  | function hkeyword hname hopening hparams hcommas hlength hclosing hbrace hbody hend ih =>
    exact eventually_add 1 (eventually_forall_mem ih) fun _ hd =>
      reads_function hkeyword hname hopening hparams hcommas hlength hclosing hbrace
        (fun p hp => (hbody p hp).starts) hd hend
  | var h =>
    obtain ⟨keyword, us, rfl, hkeyword, hread⟩ := eventually_reads_varDecl h
    exact eventually_add 1 hread fun _ => reads_var hkeyword
  | statement h ih => exact eventually_add 1 ih fun _ => reads_statement h.starts
  | branch hkeyword hopening hcondition hclosing _ ih =>
    exact eventually_add 1 ((eventually_readsExpr hcondition).and ih) fun _ hd =>
      reads_branch hkeyword hopening hd.1 hclosing hd.2
  | branchElse hkeyword hopening hcondition hclosing _ helse _ ihyes ihno =>
    exact eventually_add 1 ((eventually_readsExpr hcondition).and (ihyes.and ihno)) fun _ hd =>
      reads_branchElse hkeyword hopening hd.1 hclosing hd.2.1 helse hd.2.2
  | loop hkeyword hopening hcondition hclosing _ ih =>
    exact eventually_add 1 ((eventually_readsExpr hcondition).and ih) fun _ hd =>
      reads_loop hkeyword hopening hd.1 hclosing hd.2
  | forLoop hkeyword hopening hinitial hcondition hsemicolon hstep hclosing _ ih =>
    have hclauses := (eventually_optional hcondition).and (eventually_optional hstep)
    exact eventually_add 1 (((eventually_reads_initial hinitial).and hclauses).and ih) fun _ hd =>
      reads_forLoop hkeyword hopening hd.1.1 hd.1.2.1 hsemicolon hd.1.2.2 hclosing hd.2
  | print hkeyword h hsemicolon =>
    exact eventually_add 1 (eventually_readsExpr h) fun _ hd => reads_print hkeyword hd hsemicolon
  | ret hkeyword h hsemicolon =>
    exact eventually_add 1 (eventually_optional h) fun _ hd => reads_ret hkeyword hd hsemicolon
  | block hbrace hbody hend ih =>
    exact eventually_add 1 (eventually_forall_mem ih) fun _ hd =>
      reads_block hbrace (fun p hp => (hbody p hp).starts) hd hend
  | expression h =>
    exact eventually_add 1 (eventually_reads_exprStmt h) fun _ => reads_expression h.starts

end Grammar

end Treewalk
