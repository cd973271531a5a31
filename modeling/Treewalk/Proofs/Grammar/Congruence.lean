import Treewalk.Proofs.Grammar.Steps

/-!
# Reading as a congruence

Two readings of the same form are related when their parts are. `Congruence`
asks this of the small steps alone; **the forms of statements and
expressions follow**, once for all such relations, and by induction on the
allowed depth so do the readings themselves. A property of a single reading
is the case of a relation that looks at one side only. What the relation has
to bring along are its own arguments for the loops, for assignments and for
`return`, whose faults are noted at a token read before.
-/

namespace Treewalk

namespace Reading

/-- Completes an assignment behind its sign. -/
def assigned (target : Expr) (equals : Token) (value : Reading Expr) : Reading Expr := do
  let rest := (← get).ahead
  let e ← value
  assignTo target equals rest e

/-- A relation between readings with a clause for every small step. `Behind t`
relates readings that start behind the token `t`. -/
structure Congruence (Q : (α : Type) → Reading α → Reading α → Prop)
    (Behind : Token → (α : Type) → Reading α → Reading α → Prop) : Prop where
  pure {α : Type} (a : α) : Q α (pure a) (pure a)
  tooDeep {α : Type} : Q α (throw .tooDeep) (throw .tooDeep)
  bind {α β : Type} {m m' : Reading α} {f f' : α → Reading β} : Q α m m' →
    (∀ a, Q β (f a) (f' a)) → Q β (m >>= f) (m' >>= f')
  sees (kind : Kind) : Q Bool (sees kind) (sees kind)
  accept {β : Type} {kinds : List Kind} {f f' : Option Token → Reading β} :
    Q β (f none) (f' none) → (∀ t, Behind t β (f (some t)) (f' (some t))) →
      Q β (accept kinds >>= f) (accept kinds >>= f')
  refuse {α : Type} (cause : GrammarFault) : Q α (refuse cause) (refuse cause)
  behind {α : Type} {m m' : Reading α} (t : Token) : Q α m m' → Behind t α m m'

namespace Congruence

variable {Q : (α : Type) → Reading α → Reading α → Prop}
variable {Behind : Token → (α : Type) → Reading α → Reading α → Prop}
variable (hQ : Congruence Q Behind)
include hQ

/-! ## Clauses -/

theorem take {β : Type} {kind : Kind} {f f' : Bool → Reading β} (hleft : Q β (f false) (f' false))
    (htaken : ∀ t, Behind t β (f true) (f' true)) :
    Q β (take kind >>= f) (take kind >>= f') := by
  rw [Reading.take, bind_assoc, bind_assoc]
  exact hQ.accept hleft htaken

theorem expect (kind : Kind) (cause : GrammarFault) :
    Q Token (expect kind cause) (expect kind cause) :=
  hQ.accept (hQ.refuse cause) fun t => hQ.behind t (hQ.pure t)

theorem map {α β : Type} {m m' : Reading α} (hm : Q α m m') (f : α → β) :
    Q β (f <$> m) (f <$> m') := by
  rw [map_eq_bind, map_eq_bind]
  exact hQ.bind hm fun a => hQ.pure (f a)

theorem ifTaken {α : Type} {clause clause' : Reading α} (h : Q α clause clause') (kind : Kind) :
    Q (Option α) (ifTaken kind clause) (ifTaken kind clause') :=
  hQ.take (hQ.pure none) fun t => hQ.behind t (hQ.map h some)

theorem unlessSeen {α : Type} {clause clause' : Reading α} (h : Q α clause clause')
    (kind : Kind) : Q (Option α) (unlessSeen kind clause) (unlessSeen kind clause') := by
  refine hQ.bind (hQ.sees kind) fun seen => ?_
  split
  · exact hQ.pure none
  · exact hQ.map h some

/-! ## Expressions -/

theorem primary {inner inner' : Reading Expr} (hinner : Q Expr inner inner') :
    Q Expr (primary inner) (primary inner') := by
  refine hQ.accept (hQ.refuse _) fun t => hQ.behind t ?_
  dsimp only
  split
  case h_5 =>
    exact hQ.bind hinner fun e => hQ.bind (hQ.expect _ _) fun _ => hQ.pure (Expr.grouping e)
  all_goals exact hQ.pure _

/-- **Readings of expressions are related**, if their loops and their
assignments are. -/
theorem expressions (room room' : Nat)
    (hchain : ∀ {operand operand' : Reading Expr}, Q Expr operand operand' → ∀ level left,
      Q Expr (chain operand level room left) (chain operand' level room' left))
    (hcalls : ∀ {value value' : Reading Expr}, Q Expr value value' → ∀ callee,
      Q Expr (calls (listed value .tooManyArguments room) room callee)
        (calls (listed value' .tooManyArguments room') room' callee))
    (hassigned : ∀ {value value' : Reading Expr}, Q Expr value value' → ∀ target equals,
      Behind equals Expr (assigned target equals value) (assigned target equals value'))
    (depth : Nat) : Q Expr (expression room depth) (expression room' depth) ∧
      (∀ ls, Q Expr (operation room depth ls) (operation room' depth ls)) ∧
      Q Expr (unary room depth) (unary room' depth) := by
  induction depth with
  | zero =>
    refine ⟨hQ.tooDeep, fun ls => ?_, hQ.tooDeep⟩
    cases ls <;> exact hQ.tooDeep
  | succ depth ih =>
    obtain ⟨hexpression, hoperation, hunary⟩ := ih
    refine ⟨?_, fun ls => ?_, ?_⟩
    · rw [expression, expression]
      exact hQ.bind (hoperation levels) fun target =>
        hQ.accept (hQ.pure target) fun equals => hassigned hexpression target equals
    · cases ls with
      | nil => exact hunary
      | cons level tighter =>
        rw [operation, operation]
        exact hQ.bind (hoperation tighter) fun left => hchain (hoperation tighter) level left
    · rw [unary, unary]
      refine hQ.accept ?_ fun operator => hQ.behind operator ?_
      · exact hQ.bind (hQ.primary hexpression) fun callee => hcalls hexpression callee
      · exact hQ.bind hunary fun e => hQ.pure (Expr.unary operator e)

/-! ## Statements -/

section Forms

variable {value value' : Reading Expr} {body body' : Reading Stmt}
variable (hvalue : Q Expr value value') (hbody : Q Stmt body body')

include hvalue in
theorem varDeclaration : Q Stmt (varDeclaration value) (varDeclaration value') := by
  rw [varDeclaration_eq, varDeclaration_eq]
  exact hQ.bind (hQ.expect _ _) fun _ => hQ.bind (hQ.ifTaken hvalue _) fun _ =>
    hQ.bind (hQ.expect _ _) fun _ => hQ.pure _

include hvalue in
theorem expressionStatement :
    Q Stmt (expressionStatement value) (expressionStatement value') :=
  hQ.bind hvalue fun _ => hQ.bind (hQ.expect _ _) fun _ => hQ.pure _

include hvalue hbody in
theorem branchStatement : Q Stmt (branchStatement value body) (branchStatement value' body') := by
  rw [branchStatement_eq, branchStatement_eq]
  exact hQ.bind (hQ.expect _ _) fun _ => hQ.bind hvalue fun _ => hQ.bind (hQ.expect _ _)
    fun _ => hQ.bind hbody fun _ => hQ.bind (hQ.ifTaken hbody _) fun _ => hQ.pure _

include hvalue hbody in
theorem loopStatement : Q Stmt (loopStatement value body) (loopStatement value' body') :=
  hQ.bind (hQ.expect _ _) fun _ => hQ.bind hvalue fun _ => hQ.bind (hQ.expect _ _) fun _ =>
    hQ.bind hbody fun _ => hQ.pure _

include hvalue in
theorem initialClause : Q (Option Stmt) (initialClause value) (initialClause value') := by
  refine hQ.take ?_ fun t => hQ.behind t (hQ.pure none)
  refine hQ.take ?_ fun t => hQ.behind t ?_
  · exact hQ.bind (hQ.expressionStatement hvalue) fun _ => hQ.pure _
  · exact hQ.bind (hQ.varDeclaration hvalue) fun _ => hQ.pure _

include hvalue hbody in
theorem forStatement : Q Stmt (forStatement value body) (forStatement value' body') := by
  rw [forStatement_eq, forStatement_eq]
  exact hQ.bind (hQ.expect _ _) fun _ => hQ.bind (hQ.initialClause hvalue) fun _ =>
    hQ.bind (hQ.unlessSeen hvalue _) fun _ => hQ.bind (hQ.expect _ _) fun _ =>
      hQ.bind (hQ.unlessSeen hvalue _) fun _ => hQ.bind (hQ.expect _ _) fun _ =>
        hQ.bind hbody fun _ => hQ.pure _

include hvalue in
theorem printStatement : Q Stmt (printStatement value) (printStatement value') :=
  hQ.bind hvalue fun _ => hQ.bind (hQ.expect _ _) fun _ => hQ.pure _

end Forms

/-- **Readings of statements are related**, if expressions, functions,
`return` and blocks are. -/
theorem statements (room room' : Nat)
    (hexpression : ∀ depth, Q Expr (expression room depth) (expression room' depth))
    (hfunction : ∀ {body body' : Reading (List Stmt)}, Q (List Stmt) body body' → ∀ t,
      Behind t Stmt (functionDeclaration body room) (functionDeclaration body' room'))
    (hreturn : ∀ {value value' : Reading Expr}, Q Expr value value' → ∀ t,
      Behind t Stmt (returnStatement t value) (returnStatement t value'))
    (hblock : ∀ depth, Q Stmt (attempt room depth) (attempt room' depth) →
      Q (List Stmt) (block (declaration room depth) room) (block (declaration room' depth) room'))
    (depth : Nat) : Q Stmt (attempt room depth) (attempt room' depth) ∧
      Q Stmt (statement room depth) (statement room' depth) := by
  induction depth with
  | zero => exact ⟨hQ.tooDeep, hQ.tooDeep⟩
  | succ depth ih =>
    obtain ⟨hattempt, hstatement⟩ := ih
    have hvalue := hexpression depth
    have hinner := hblock depth hattempt
    constructor
    · rw [attempt, attempt]
      refine hQ.take ?_ fun t => hfunction hinner t
      exact hQ.take hstatement fun t => hQ.behind t (hQ.varDeclaration hvalue)
    · rw [statement, statement]
      refine hQ.accept (hQ.expressionStatement hvalue) fun t => ?_
      dsimp only
      split
      · exact hQ.behind t (hQ.branchStatement hvalue hstatement)
      · exact hQ.behind t (hQ.loopStatement hvalue hstatement)
      · exact hQ.behind t (hQ.forStatement hvalue hstatement)
      · exact hQ.behind t (hQ.printStatement hvalue)
      · exact hreturn hvalue t
      · exact hQ.behind t (hQ.bind hinner fun _ => hQ.pure _)

end Congruence

end Reading

end Treewalk
