import Treewalk.Proofs.Evaluation.Operators
import Treewalk.Proofs.Grammar.Rules
import Treewalk.Proofs.Tree.Likeness

/-!
# Programs of the grammar are well formed

Nothing is missing or out of place in a tree that the grammar derives, and
every token in it is one of the tokens it was derived from, of a kind that
suits its role: prefix operators are `!` and `-`, binary operators are the
ten that the evaluator knows. That is to say that the tree is like itself,
for every relation that such tokens have to themselves.
-/

namespace Treewalk

/-- The kinds of token that suit a role. -/
def Role.kinds : Role → List Kind
  | .unary => Operators.unaryKinds
  | .binary => Operators.binaryKinds
  | .connective => [.kwOr, .kwAnd]
  | .name | .declared => [.identifier]
  | .paren => [.rightParen]
  | .keyword => [.kwReturn]

namespace Grammar

variable {R : Role → Token → Token → Prop} {ts us : List Token}

/-- Tokens that the relation holds of, in every role that suits them. -/
def Supplies (R : Role → Token → Token → Prop) (ts : List Token) : Prop :=
  ∀ t ∈ ts, ∀ r : Role, t.kind ∈ r.kinds → R r t t

theorem Supplies.mono (h : Supplies R ts) (hsub : ∀ t ∈ us, t ∈ ts) : Supplies R us :=
  fun t ht => h t (hsub t ht)

theorem Supplies.token (h : Supplies R ts) {t : Token} (ht : t ∈ ts) {kind : Kind}
    (hkind : t.kind = kind) {r : Role} (hr : kind ∈ r.kinds) : R r t t :=
  h t ht r (hkind ▸ hr)

/-! ## Expressions -/

/-- What every step of a row keeps holds at its end. -/
theorem like_foldl {α : Type} {node : Expr → α → Expr} {rows : List α} {e : Expr}
    (he : Expr.Like R False e e) (hnode : ∀ x ∈ rows, ∀ left, Expr.Like R False left left →
      Expr.Like R False (node left x) (node left x)) :
    Expr.Like R False (rows.foldl node e) (rows.foldl node e) := by
  induction rows generalizing e with
  | nil => exact he
  | cons x rows ih =>
    rw [List.foldl_cons]
    exact ih (hnode x (by simp) e he) fun y hy => hnode y (by simp [hy])

/-- The operators of a chain suit the tree that it makes of them. -/
theorem like_chain {p q : Phrase} {operators : List Kind} {node : Expr → Token → Expr → Expr}
    (h : Chain p q operators node) {left right : Expr} {o : Token}
    (hleft : Expr.Like R False left left) (ho : o.kind ∈ operators)
    (hR : ∀ r : Role, o.kind ∈ r.kinds → R r o o) (hright : Expr.Like R False right right) :
    Expr.Like R False (node left o right) (node left o right) := by
  have hbinary (hsub : ∀ k ∈ operators, k ∈ Operators.binaryKinds) :
      Expr.Like R False (.binary left o right) (.binary left o right) :=
    .binary hleft (hR .binary (hsub _ ho)) hright
  have hlogical (hsub : ∀ k ∈ operators, k ∈ [Kind.kwOr, .kwAnd]) :
      Expr.Like R False (.logical left o right) (.logical left o right) :=
    .logical hleft (hR .connective (hsub _ ho)) hright
  cases h with
  | logicOr | logicAnd => exact hlogical (by decide)
  | equality | comparison | term | factor => exact hbinary (by decide)

theorem forall₂_second {α β : Type} {P : β → β → Prop} {parts : List (α × β)}
    (h : ∀ p ∈ parts, P p.2 p.2) : List.Forall₂ P (parts.map (·.2)) (parts.map (·.2)) := by
  rw [List.forall₂_same]
  simp only [List.mem_map]
  rintro _ ⟨p, hp, rfl⟩
  exact h p hp

theorem Commas.mem {parts : List (List Token)} (h : Commas parts ts) {us : List Token}
    (hus : us ∈ parts) {t : Token} (ht : t ∈ us) : t ∈ ts := by
  induction h with
  | nil => cases hus
  | one =>
    obtain rfl := List.mem_singleton.1 hus
    exact ht
  | cons _ _ _ ih =>
    rcases List.mem_cons.1 hus with rfl | hus
    · exact List.mem_append_left _ ht
    · exact List.mem_append_right _ (List.mem_cons_of_mem _ (ih hus))

/-- **Expressions that the rules derive are well formed.** -/
theorem Derives.like {p : Phrase} {e : Expr} (h : Derives p ts e) (hR : Supplies R ts) :
    Expr.Like R False e e := by
  induction h with
  | assign hname _ _ ih =>
    exact .assign (hR.token (by simp) hname (by decide)) (ih (hR.mono fun t ht => by simp [ht]))
  | assignment _ ih | operand _ ih => exact ih hR
  | chain hchain _ hoperators _ ih ihs =>
    refine like_foldl (ih (hR.mono fun t ht => by simp [ht])) fun l hl left hleft => ?_
    have hlink : Supplies R l.all := hR.mono fun t ht =>
      List.mem_append_right _ (List.mem_flatMap.2 ⟨l, hl, ht⟩)
    exact like_chain hchain hleft (hoperators l hl) (hlink _ List.mem_cons_self)
      (ihs l hl (hlink.mono fun t ht => List.mem_cons_of_mem _ ht))
  | unary hoperator _ ih =>
    have hright := ih (hR.mono fun t ht => by simp [ht])
    rcases hoperator with h | h
    · exact .unary (hR.token (by simp) h (by decide)) hright
    · exact .unary (hR.token (by simp) h (by decide)) hright
  | call _ hlists _ ih ihs =>
    -- each list calls what was called before it
    refine like_foldl (ih (hR.mono fun t ht => by simp [ht])) fun a ha f hf => ?_
    have hall : Supplies R a.all := hR.mono fun t ht =>
      List.mem_append_right _ (List.mem_flatMap.2 ⟨a, ha, ht⟩)
    refine .call hf (hall.token (by simp [Arguments.all]) (hlists a ha).closing (by decide))
      (forall₂_second fun p hp => ihs a ha p hp (hall.mono fun t ht => ?_))
    have hmem := (hlists a ha).commas.mem (List.mem_map_of_mem hp) ht
    simp [Arguments.all, hmem]
  | false _ | true _ | nil _ | number _ | string _ => exact .literal _
  | name h => exact .name (hR.token (by simp) h (by decide))
  | grouping _ _ _ ih => exact .grouping (ih (hR.mono fun t ht => by simp [ht]))

/-! ## Clauses -/

theorem VarDecl.like {s : Stmt} (h : VarDecl ts s) (hR : Supplies R ts) :
    Stmt.Like R False s s := by
  cases h with
  | plain _ hname _ => exact .var (hR.token (by simp) hname (by decide))
  | initial _ hname _ he _ =>
    exact .varInitial (hR.token (by simp) hname (by decide))
      (he.like (hR.mono fun t ht => by simp [ht]))

theorem ExprStmt.like {s : Stmt} (h : ExprStmt ts s) (hR : Supplies R ts) :
    Stmt.Like R False s s := by
  cases h with
  | mk he _ => exact .expression (he.like (hR.mono fun t ht => by simp [ht]))

theorem Initial.like {s : Stmt} (h : Initial ts (some s)) (hR : Supplies R ts) :
    Stmt.Like R False s s := by
  cases h with
  | var h => exact h.like hR
  | expression h => exact h.like hR

theorem like_of_optional {e : Expr} (h : Optional DerivesExpr ts (some e))
    (hR : Supplies R ts) : Expr.Like R False e e := by
  cases h with
  | some h => exact h.like hR

/-- The tree of a `for` is well formed if its parts are. -/
theorem like_forTree {initial : Option Stmt} {condition step : Option Expr} {body : Stmt}
    (hinitial : ∀ s, initial = some s → Stmt.Like R False s s)
    (hcondition : ∀ e, condition = some e → Expr.Like R False e e)
    (hstep : ∀ e, step = some e → Expr.Like R False e e) (hbody : Stmt.Like R False body body) :
    Stmt.Like R False (forTree initial condition step body)
      (forTree initial condition step body) := by
  have hround : ∀ e, step = some e →
      Stmt.Like R False (.block [body, .expression e]) (.block [body, .expression e]) :=
    fun e he => .block (.cons hbody (.cons (.expression (hstep e he)) .nil))
  have htrue : Expr.Like R False (.literal (.bool true)) (.literal (.bool true)) := .literal _
  cases initial with
  | none =>
    cases condition <;> cases step
    · exact .loop htrue hbody
    · exact .loop htrue (hround _ rfl)
    · exact .loop (hcondition _ rfl) hbody
    · exact .loop (hcondition _ rfl) (hround _ rfl)
  | some s =>
    have hs := hinitial s rfl
    cases condition <;> cases step
    · exact .block (.cons hs (.cons (.loop htrue hbody) .nil))
    · exact .block (.cons hs (.cons (.loop htrue (hround _ rfl)) .nil))
    · exact .block (.cons hs (.cons (.loop (hcondition _ rfl) hbody) .nil))
    · exact .block (.cons hs (.cons (.loop (hcondition _ rfl) (hround _ rfl)) .nil))

/-! ## Statements -/

/-- **Statements that the rules derive are well formed.** -/
theorem DerivesStmt.like {inside : Bool} {f : Form} {s : Stmt} (h : DerivesStmt inside f ts s)
    (hR : Supplies R ts) : Stmt.Like R False s s := by
  induction h with
  | function _ hname _ hparams hcommas _ _ _ _ _ ih =>
    refine .function (hR.token (by simp) hname (by decide)) (List.forall₂_same.2 fun p hp => ?_)
      (forall₂_second fun p hp => ih p hp (hR.mono fun t ht => ?_))
    · have hmem := hcommas.mem (List.mem_map_of_mem hp) (List.mem_singleton_self p)
      exact hR.token (by simp [hmem]) (hparams p hp) (by decide)
    · have hmem := List.mem_flatMap.2 ⟨p, hp, ht⟩
      simp [hmem]
  | var h => exact h.like hR
  | statement _ ih => exact ih hR
  | branch _ _ hcondition _ _ ih =>
    exact .branch (hcondition.like (hR.mono fun t ht => by simp [ht]))
      (ih (hR.mono fun t ht => by simp [ht]))
  | branchElse _ _ hcondition _ _ _ _ ihyes ihno =>
    exact .branchElse (hcondition.like (hR.mono fun t ht => by simp [ht]))
      (ihyes (hR.mono fun t ht => by simp [ht])) (ihno (hR.mono fun t ht => by simp [ht]))
  | loop _ _ hcondition _ _ ih =>
    exact .loop (hcondition.like (hR.mono fun t ht => by simp [ht]))
      (ih (hR.mono fun t ht => by simp [ht]))
  | forLoop _ _ hinitial hcondition _ hstep _ _ ih =>
    refine like_forTree
      (fun s hs => Initial.like (hs ▸ hinitial) (hR.mono fun t ht => by simp [ht]))
      (fun e he => like_of_optional (he ▸ hcondition) (hR.mono fun t ht => by simp [ht]))
      (fun e he => like_of_optional (he ▸ hstep) (hR.mono fun t ht => by simp [ht]))
      (ih (hR.mono fun t ht => by simp [ht]))
  | print _ h _ => exact .print (h.like (hR.mono fun t ht => by simp [ht]))
  | @ret _ _ _ e? hkeyword h _ =>
    -- the keyword stays in the tree, as the token to blame
    have hreturn := hR.token (by simp) hkeyword (by decide : Kind.kwReturn ∈ Role.keyword.kinds)
    cases e? with
    | none => exact .ret hreturn
    | some e => exact .retValue hreturn (like_of_optional h (hR.mono fun t ht => by simp [ht]))
  | block _ _ _ ih =>
    refine .block (forall₂_second fun p hp => ih p hp (hR.mono fun t ht => ?_))
    have hmem := List.mem_flatMap.2 ⟨p, hp, ht⟩
    simp [hmem]
  | expression h => exact h.like hR

/-- **Programs are well formed.** -/
theorem Program.like {program : List Stmt} (h : Program ts program) (hR : Supplies R ts) :
    List.Forall₂ (Stmt.Like R False) program program := by
  obtain ⟨parts, hparts, rfl, rfl⟩ := h
  exact forall₂_second fun p hp => (hparts p hp).like
    (hR.mono fun t ht => List.mem_flatMap.2 ⟨p, hp, ht⟩)

end Grammar

end Treewalk
