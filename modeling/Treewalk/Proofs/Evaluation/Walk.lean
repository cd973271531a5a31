import Treewalk.Proofs.Evaluation.Operators
import Treewalk.Proofs.Tree.Likeness
import Mathlib.Order.Basic

/-!
# Walking through two evaluations at once

A walk relates the steps of two runs. If it has a clause for every small step
of the machine (`Walk.Lawful`), it relates the evaluations of trees that are
alike: **the forms of expressions and statements follow**, once for all walks,
and by induction on the allowed depth so do the evaluations themselves. A
property of a single run is a walk that looks at one side only.

What two runs have come to is a world. Worlds grow along a run, and what is
related in one world stays so in all later ones. Values are related through
the scopes that functions keep, so a walk has to say only which scopes are.
-/

namespace Treewalk

open Machine

/-! ## Related values -/

/-- Values that differ at most in the scope that a function keeps, and there
are related. -/
inductive Value.Agree (R : ScopeId → ScopeId → Prop) : Value → Value → Prop
  | closure (id : ℕ) (name : String) (params : List String) {i i' : ScopeId} : R i i' →
      Value.Agree R (.function (.closure id name params i))
        (.function (.closure id name params i'))
  | plain {v : Value} : v.scope? = none → Value.Agree R v v

/-- Completions with such values. -/
inductive Completion.Agree (R : ScopeId → ScopeId → Prop) : Completion → Completion → Prop
  | normal : Completion.Agree R .normal .normal
  | returned {v v' : Value} : Value.Agree R v v' →
      Completion.Agree R (.returned v) (.returned v')

section

variable {R R' : ScopeId → ScopeId → Prop} {v v' u u' : Value}

theorem Value.Agree.mono (h : Value.Agree R v v') (hR : ∀ i i', R i i' → R' i i') :
    Value.Agree R' v v' := by
  cases h with
  | closure id name params hi => exact .closure id name params (hR _ _ hi)
  | plain hv => exact .plain hv

theorem Value.Agree.refl (h : ∀ k, v.scope? = some k → R k k) : Value.Agree R v v := by
  rcases v with _ | _ | _ | _ | ⟨⟨id, name, params, i⟩ | _⟩
  case function.closure => exact .closure id name params (h i rfl)
  all_goals exact .plain rfl

/-- The scope that the first of two related values keeps. -/
theorem Value.Agree.related {k : ScopeId} (h : Value.Agree R v v') (hk : v.scope? = some k) :
    ∃ k', R k k' := by
  cases h with
  | closure id name params hi =>
    obtain rfl := Option.some.inj hk
    exact ⟨_, hi⟩
  | plain hv =>
    rw [hv] at hk
    cases hk

theorem Value.agree_eq : Value.Agree (Eq : ScopeId → ScopeId → Prop) = Eq := by
  funext v v'
  refine propext ⟨fun h => ?_, fun h => h ▸ .refl fun _ _ => rfl⟩
  cases h with
  | closure id name params hi => rw [hi]
  | plain _ => rfl

theorem Completion.agree_eq : Completion.Agree (Eq : ScopeId → ScopeId → Prop) = Eq := by
  funext c c'
  refine propext ⟨fun h => ?_, fun h => h ▸ ?_⟩
  · cases h with
    | normal => rfl
    | returned hv =>
      rw [Value.agree_eq] at hv
      rw [hv]
  · cases c with
    | normal => exact .normal
    | returned v => exact .returned (.refl fun _ _ => rfl)

/-! What does not depend on the scope of a function. -/

theorem Value.Agree.truthy (h : Value.Agree R v v') : v'.truthy = v.truthy := by
  cases h <;> rfl

theorem Value.Agree.text (h : Value.Agree R v v') : v'.text = v.text := by
  cases h <;> rfl

theorem Value.Agree.applyUnary (h : Value.Agree R v v') (o : Token) :
    applyUnary o v' = applyUnary o v := by
  cases h <;> rfl

theorem Value.Agree.applyBinary (hv : Value.Agree R v v') (hu : Value.Agree R u u') (o : Token) :
    applyBinary o v' u' = applyBinary o v u := by
  cases hv with
  | closure id name params hi =>
    cases hu with
    | closure id' name' params' hi' => rfl
    | plain _ => cases u <;> rfl
  | plain _ =>
    cases hu with
    | closure id' name' params' hi' => cases v <;> rfl
    | plain _ => rfl

/-- The same names in the same order, with related values. -/
abbrev BindingsAgree (R : ScopeId → ScopeId → Prop) :
    List (String × Value) → List (String × Value) → Prop :=
  List.Forall₂ fun b b' => b.1 = b'.1 ∧ Value.Agree R b.2 b'.2

/-- The parameters are bound to the arguments in both runs. -/
theorem bindingsAgree_zip {vs vs' : List Value} (h : List.Forall₂ (Value.Agree R) vs vs')
    (params : List String) : BindingsAgree R (params.zip vs) (params.zip vs') := by
  induction h generalizing params with
  | nil =>
    rw [List.zip_nil_right]
    exact .nil
  | cons hv _ ih =>
    cases params with
    | nil => exact .nil
    | cons x params => exact .cons ⟨rfl, hv⟩ (ih params)

end

/-! ## Walks -/

/-- How the steps of two runs are related. -/
structure Walk (World : Type) where
  /-- Steps that lead from related states to related results, in whatever a
  world has grown to. -/
  Steps {α : Type} : World → (World → α → α → Prop) → Machine α → Machine α → Prop
  /-- Scopes that code may run in. -/
  scope : World → ScopeId → ScopeId → Prop
  /-- Names that may be declared in two scopes. -/
  name : World → ScopeId → ScopeId → String → Prop
  /-- The values that may be literals. -/
  literal : Value → Prop
  /-- Related tokens, by the role they play. -/
  token : Role → Token → Token → Prop
  /-- Whether places that are no program may occur. -/
  holes : Prop
  /-- Reasons to stop. -/
  stop : Stop → Stop → Prop

namespace Walk

variable {World : Type}

/-- The only world of two runs that are related in the same way throughout. -/
inductive Still where
  | still

instance : Preorder Still where
  le _ _ := True
  le_refl _ := trivial
  le_trans _ _ _ _ _ := trivial

/-- Values that are related in a world. -/
abbrev values (W : Walk World) (w : World) : Value → Value → Prop := Value.Agree (W.scope w)

/-- Completions that are related in a world. -/
abbrev completions (W : Walk World) (w : World) : Completion → Completion → Prop :=
  Completion.Agree (W.scope w)

/-- Code that two runs may execute. -/
structure Code (W : Walk World) (ss ss' : List Stmt) : Prop where
  like : List.Forall₂ (Stmt.Like W.token W.holes) ss ss'
  literals : ∀ v ∈ Stmt.literalsAll ss, W.literal v

/-- A walk with a clause for every small step of the machine, over two tables
of operators. -/
structure Lawful [Preorder World] (W : Walk World) (ops ops' : Operators) : Prop where
  scope_mono {w w' : World} {i i' : ScopeId} : w ≤ w' → W.scope w i i' → W.scope w' i i'
  name_mono {w w' : World} {i i' : ScopeId} {x : String} : w ≤ w' → W.name w i i' x →
    W.name w' i i' x
  mono {α : Type} {w w' : World} {Q : World → α → α → Prop} {m m' : Machine α} : w ≤ w' →
    W.Steps w Q m m' → W.Steps w' Q m m'
  literal {v : Value} (w : World) : W.literal v → W.values w v v
  declared {t t' : Token} : W.token .declared t t' → t'.lexeme = t.lexeme
  connective {t t' : Token} : W.token .connective t t' → t'.kind = t.kind
  -- sequences
  pure {α : Type} {w : World} {Q : World → α → α → Prop} {a a' : α} :
    (∀ w', w ≤ w' → Q w' a a') → W.Steps w Q (pure a) (pure a')
  throw {α : Type} {w : World} {Q : World → α → α → Prop} {e e' : Stop} : W.stop e e' →
    W.Steps w Q (throw e) (throw e')
  bind {α β : Type} {w : World} {Q : World → α → α → Prop} {Q' : World → β → β → Prop}
    {m m' : Machine α} {k k' : α → Machine β} : W.Steps w Q m m' →
    (∀ w₁ a a', w ≤ w₁ → Q w₁ a a' → W.Steps w₁ Q' (k a) (k' a')) →
    W.Steps w Q' (m >>= k) (m' >>= k')
  -- reasons to stop
  overflow : W.stop .stackOverflow .stackOverflow
  endless : W.stop .endless .endless
  malformed : W.holes → W.stop .malformed .malformed
  notCallable {t t' : Token} : W.token .paren t t' →
    W.stop (.error ⟨t, .notCallable⟩) (.error ⟨t', .notCallable⟩)
  wrongArity {t t' : Token} (arity count : ℕ) : W.token .paren t t' →
    W.stop (.error ⟨t, .wrongArity arity count⟩) (.error ⟨t', .wrongArity arity count⟩)
  -- steps of the machine
  openScope {w : World} {i i' : ScopeId} : W.scope w i i' →
    W.Steps w (fun w n n' => W.scope w n n' ∧ ∀ x, W.name w n n' x) (openScope i) (openScope i')
  define {w : World} {i i' : ScopeId} {x : String} {v v' : Value} : W.scope w i i' →
    W.name w i i' x → W.values w v v' →
    W.Steps w (fun _ _ _ => True) (define i x v) (define i' x v')
  read {w : World} {i i' : ScopeId} {t t' : Token} : W.scope w i i' → W.token .name t t' →
    W.Steps w W.values (read i t) (read i' t')
  assign {w : World} {i i' : ScopeId} {t t' : Token} {v v' : Value} : W.scope w i i' →
    W.token .name t t' → W.values w v v' →
    W.Steps w (fun _ _ _ => True) (assign i t v) (assign i' t' v')
  print {w : World} {v v' : Value} : W.values w v v' →
    W.Steps w (fun _ _ _ => True) (print v) (print v')
  declare {w : World} {i i' : ScopeId} {t t' : Token} {ps ps' : List Token}
    {ss ss' : List Stmt} : W.scope w i i' → W.name w i i' t.lexeme → W.token .declared t t' →
    List.Forall₂ (W.token .declared) ps ps' → W.Code ss ss' →
    W.Steps w (fun _ _ _ => True) (declare t ps ss i) (declare t' ps' ss' i')
  bodyOf {w : World} (id : ℕ) : W.Steps w (fun _ => W.Code) (bodyOf id) (bodyOf id)
  native {w : World} (id : ℕ) : W.Steps w W.values (native id) (native id)
  unary {w : World} {o o' : Token} {v v' : Value} : W.token .unary o o' → W.values w v v' →
    W.Steps w W.values (ops.unary o v) (ops'.unary o' v')
  binary {w : World} {o o' : Token} {v v' u u' : Value} : W.token .binary o o' →
    W.values w v v' → W.values w u u' →
    W.Steps w W.values (ops.binary o v u) (ops'.binary o' v' u')

/-! ## Operators of the language -/

section

variable {W : Walk World} {w : World} {o : Token} {v v' u u' : Value}
variable (h : ∀ x : Except RuntimeError Value, (∀ v, x = .ok v → v.scope? = none) →
  x = blamedOn o x → W.Steps w W.values (ofExcept x) (ofExcept x))
include h

theorem steps_standard_unary (hv : W.values w v v') :
    W.Steps w W.values (Operators.standard.unary o v) (Operators.standard.unary o v') := by
  simp only [Operators.standard, hv.applyUnary o]
  exact h _ (fun _ hx => scope?_of_applyUnary hx) (applyUnary_eq_blamedOn rfl v)

theorem steps_standard_binary (hv : W.values w v v') (hu : W.values w u u') :
    W.Steps w W.values (Operators.standard.binary o v u)
      (Operators.standard.binary o v' u') := by
  simp only [Operators.standard, hv.applyBinary hu o]
  exact h _ (fun _ hx => scope?_of_applyBinary hx) (applyBinary_eq_blamedOn rfl rfl v u)

end

/-! ## Loops and calls -/

namespace Lawful

variable [Preorder World] {W : Walk World} {ops ops' : Operators} (hW : W.Lawful ops ops')
variable {w w' : World} {i i' : ScopeId}
include hW

theorem values_mono {v v' : Value} (hle : w ≤ w') (h : W.values w v v') : W.values w' v v' :=
  h.mono fun _ _ hi => hW.scope_mono hle hi

theorem defineAll {bindings bindings' : List (String × Value)} (hi : W.scope w i i')
    (hname : ∀ x, W.name w i i' x) (h : BindingsAgree (W.scope w) bindings bindings') :
    W.Steps w (fun _ _ _ => True) (defineAll i bindings) (defineAll i' bindings') := by
  induction h with
  | nil => exact hW.pure fun _ _ => trivial
  | @cons b b' rest rest' hb _ ih =>
    obtain ⟨x, v⟩ := b
    obtain ⟨x', v'⟩ := b'
    obtain ⟨rfl, hv⟩ := hb
    exact hW.bind (hW.define hi (hname x) hv) fun _ _ _ hle _ => hW.mono hle ih

theorem evaluateAll {evaluate evaluate' : Expr → Machine Value} {es es' : List Expr}
    (h : List.Forall₂ (fun e e' => W.Steps w W.values (evaluate e) (evaluate' e')) es es') :
    W.Steps w (fun w => List.Forall₂ (W.values w)) (evaluateAll evaluate es)
      (evaluateAll evaluate' es') := by
  induction h with
  | nil => exact hW.pure fun _ _ => .nil
  | cons he _ ih =>
    refine hW.bind he fun w₁ v v' hle₁ hv => hW.bind (hW.mono hle₁ ih) fun w₂ vs vs' hle₂ hvs => ?_
    refine hW.pure fun w₃ hle₃ => .cons (hW.values_mono (hle₂.trans hle₃) hv) ?_
    exact hvs.imp fun _ _ => hW.values_mono hle₃

theorem executeAll {execute execute' : Stmt → Machine Completion} {ss ss' : List Stmt}
    (h : List.Forall₂ (fun s s' => W.Steps w W.completions (execute s) (execute' s')) ss ss') :
    W.Steps w W.completions (executeAll execute ss) (executeAll execute' ss') := by
  induction h with
  | nil => exact hW.pure fun _ _ => .normal
  | cons hs _ ih =>
    refine hW.bind hs fun w₁ c c' hle hc => ?_
    cases hc with
    | normal => exact hW.mono hle ih
    | returned hv => exact hW.pure fun _ hle' => .returned (hW.values_mono hle' hv)

theorem repeatWhile {test test' : Machine Value} {body body' : Machine Completion}
    (htest : W.Steps w W.values test test') (hbody : W.Steps w W.completions body body')
    (rounds : ℕ) :
    W.Steps w W.completions (repeatWhile test body rounds) (repeatWhile test' body' rounds) := by
  -- both loops have the same rounds left, and run out of them together
  induction rounds with
  | zero => exact hW.throw hW.endless
  | succ rounds ih =>
    refine hW.bind htest fun w₁ v v' hle₁ hv => ?_
    rw [hv.truthy]
    split
    · refine hW.bind (hW.mono hle₁ hbody) fun w₂ c c' hle₂ hc => ?_
      cases hc with
      | normal => exact hW.mono (hle₁.trans hle₂) ih
      | returned hv => exact hW.pure fun _ hle => .returned (hW.values_mono hle hv)
    · exact hW.pure fun _ _ => .normal

end Lawful

/-- Runs of code in scopes where any name may be declared. -/
def RunsCode (W : Walk World) (run run' : List Stmt → ScopeId → Machine Completion) : Prop :=
  ∀ ⦃w : World⦄ ⦃ss ss' : List Stmt⦄ ⦃i i' : ScopeId⦄, W.Code ss ss' → W.scope w i i' →
    (∀ x, W.name w i i' x) → W.Steps w W.completions (run ss i) (run' ss' i')

namespace Lawful

variable [Preorder World] {W : Walk World} {ops ops' : Operators} (hW : W.Lawful ops ops')
variable {w : World} {run run' : List Stmt → ScopeId → Machine Completion}
variable (hrun : W.RunsCode run run') {vs vs' : List Value}
include hW hrun

/-- **A call runs the body of the function**, which is code of the state, in a
new scope. -/
theorem invoke (hvs : List.Forall₂ (W.values w) vs vs') {f f' : Function}
    (hf : W.values w (.function f) (.function f')) :
    W.Steps w W.values (invoke run vs f) (invoke run' vs' f') := by
  cases hf with
  | closure id name params hi =>
    refine hW.bind (hW.openScope hi) fun w₁ n n' hle₁ hn => ?_
    have hbindings := bindingsAgree_zip (hvs.imp fun _ _ => hW.values_mono hle₁) params
    refine hW.bind (hW.defineAll hn.1 hn.2 hbindings) fun w₂ _ _ hle₂ _ => ?_
    refine hW.bind (hW.bodyOf id) fun w₃ body body' hle₃ hbody => ?_
    have hle := hle₂.trans hle₃
    have hbody := hrun hbody (hW.scope_mono hle hn.1) fun x => hW.name_mono hle (hn.2 x)
    refine hW.bind hbody fun w₄ c c' _ hc => ?_
    cases hc with
    | normal => exact hW.pure fun _ _ => .plain rfl
    | returned hv => exact hW.pure fun _ hle => hW.values_mono hle hv
  | plain hf =>
    cases f with
    | closure id name params scope => cases hf
    | native id name arity => exact hW.native id

theorem call {paren paren' : Token} (hparen : W.token .paren paren paren') {f f' : Value}
    (hf : W.values w f f') (hvs : List.Forall₂ (W.values w) vs vs') :
    W.Steps w W.values (call run paren f vs) (call run' paren' f' vs') := by
  have hlength := hvs.length_eq
  cases hf with
  | closure id name params hi =>
    rw [Machine.call, Machine.call, hlength]
    change W.Steps w W.values (if vs'.length = params.length then _ else _)
      (if vs'.length = params.length then _ else _)
    split
    · exact hW.invoke hrun hvs (.closure id name params hi)
    · exact hW.throw (hW.wrongArity _ _ hparen)
  | plain hf =>
    cases f with
    | function f =>
      rw [Machine.call, Machine.call, hlength]
      split
      · exact hW.invoke hrun hvs (.plain hf)
      · exact hW.throw (hW.wrongArity _ _ hparen)
    | _ => exact hW.throw (hW.notCallable hparen)

end Lawful

/-! ## Trees -/

/-- Evaluations to two depths are related, for all trees that are alike. -/
structure Runs (W : Walk World) (ops ops' : Operators) (rounds depth depth' : ℕ) : Prop where
  evaluate {e e' : Expr} : Expr.Like W.token W.holes e e' → (∀ v ∈ e.literals, W.literal v) →
    ∀ ⦃w : World⦄ ⦃i i' : ScopeId⦄, W.scope w i i' →
      W.Steps w W.values (evaluateWith ops rounds depth e i)
        (evaluateWith ops' rounds depth' e' i')
  execute {s s' : Stmt} : Stmt.Like W.token W.holes s s' → (∀ v ∈ s.literals, W.literal v) →
    ∀ ⦃w : World⦄ ⦃i i' : ScopeId⦄, W.scope w i i' → (∀ x ∈ s.declared, W.name w i i' x) →
      W.Steps w W.completions (executeWith ops rounds depth s i)
        (executeWith ops' rounds depth' s' i')

section

variable [Preorder World] {W : Walk World} {ops ops' : Operators} (hW : W.Lawful ops ops')
variable {rounds depth depth' : ℕ} {w : World}
include hW

theorem Runs.runsCode (h : W.Runs ops ops' rounds depth depth') :
    W.RunsCode (fun body inner => executeAll (fun s => executeWith ops rounds depth s inner) body)
      fun body inner => executeAll (fun s => executeWith ops' rounds depth' s inner) body := by
  intro w ss ss' i i' hss hi hname
  obtain ⟨hlike, hliterals⟩ := hss
  rw [Stmt.literalsAll_eq_flatMap] at hliterals
  have hl : ∀ s ∈ ss, ∀ v ∈ s.literals, W.literal v := fun s hs v hv =>
    hliterals v (List.mem_flatMap.2 ⟨s, hs, hv⟩)
  have hboth := (List.forall₂_and_left ss ss').2 ⟨hl, hlike⟩
  exact hW.executeAll (hboth.imp fun s s' hs => h.execute hs.2 hs.1 hi fun x _ => hname x)

/-- **One more step of depth on both sides.** -/
theorem Runs.succ (h : W.Runs ops ops' rounds depth depth') :
    W.Runs ops ops' rounds (depth + 1) (depth' + 1) := by
  have hrun := h.runsCode hW
  constructor
  · intro e e' he hl w i i' hi
    cases he with
    | literal v => exact hW.pure fun w _ => hW.literal w (hl v (List.mem_singleton_self v))
    | grouping he => exact h.evaluate he hl hi
    | name ht => exact hW.read hi ht
    | assign ht he =>
      refine hW.bind (h.evaluate he hl hi) fun w₁ v v' hle₁ hv => ?_
      refine hW.bind (hW.assign (hW.scope_mono hle₁ hi) ht hv) fun w₂ _ _ hle₂ _ => ?_
      exact hW.pure fun _ hle₃ => hW.values_mono (hle₂.trans hle₃) hv
    | logical hleft ho hright =>
      obtain ⟨hll, hlr⟩ := List.forall_mem_append.1 hl
      -- both sides take the shortcut, as it hangs on the kind of the connective
      simp only [evaluateWith, hW.connective ho]
      refine hW.bind (h.evaluate hleft hll hi) fun w₁ v v' hle₁ hv => ?_
      rw [hv.truthy]
      split
      · exact hW.pure fun _ hle₂ => hW.values_mono hle₂ hv
      · exact h.evaluate hright hlr (hW.scope_mono hle₁ hi)
    | unary ho he => exact hW.bind (h.evaluate he hl hi) fun w₁ v v' _ hv => hW.unary ho hv
    | binary hleft ho hright =>
      obtain ⟨hll, hlr⟩ := List.forall_mem_append.1 hl
      refine hW.bind (h.evaluate hleft hll hi) fun w₁ v v' hle₁ hv => ?_
      refine hW.bind (h.evaluate hright hlr (hW.scope_mono hle₁ hi)) fun w₂ u u' hle₂ hu => ?_
      exact hW.binary ho (hW.values_mono hle₂ hv) hu
    | @call _ _ _ _ es es' hf hparen hes =>
      obtain ⟨hlf, hles⟩ := List.forall_mem_append.1 hl
      rw [Expr.literalsAll_eq_flatMap] at hles
      have hl : ∀ e ∈ es, ∀ v ∈ e.literals, W.literal v := fun e he v hv =>
        hles v (List.mem_flatMap.2 ⟨e, he, hv⟩)
      have hboth := (List.forall₂_and_left es es').2 ⟨hl, hes⟩
      refine hW.bind (h.evaluate hf hlf hi) fun w₁ callee callee' hle₁ hcallee => ?_
      have harguments : W.Steps w₁ (fun w => List.Forall₂ (W.values w))
          (evaluateAll (fun a => evaluateWith ops rounds depth a i) es)
          (evaluateAll (fun a => evaluateWith ops' rounds depth' a i') es') :=
        hW.evaluateAll (hboth.imp fun e e' he => h.evaluate he.2 he.1 (hW.scope_mono hle₁ hi))
      exact hW.bind harguments fun w₂ vs vs' hle₂ hvs =>
        hW.call hrun hparen (hW.values_mono hle₂ hcallee) hvs
    | missing hhole => exact hW.throw (hW.malformed hhole)
    | unknown hhole => exact hW.throw (hW.malformed hhole)
    | stray hhole _ => exact hW.throw (hW.malformed hhole)
  · intro s s' hs hl w i i' hi hname
    cases hs with
    | expression he =>
      exact hW.bind (h.evaluate he hl hi) fun _ _ _ _ _ => hW.pure fun _ _ => .normal
    | print he =>
      refine hW.bind (h.evaluate he hl hi) fun w₁ v v' _ hv => ?_
      exact hW.bind (hW.print hv) fun _ _ _ _ _ => hW.pure fun _ _ => .normal
    | var ht =>
      simp only [executeWith, hW.declared ht]
      exact hW.bind (hW.define hi (hname _ List.mem_cons_self) (.plain rfl)) fun _ _ _ _ _ =>
        hW.pure fun _ _ => .normal
    | varInitial ht he =>
      simp only [executeWith, hW.declared ht]
      refine hW.bind (h.evaluate he hl hi) fun w₁ v v' hle₁ hv => ?_
      have hx := hW.name_mono hle₁ (hname _ List.mem_cons_self)
      exact hW.bind (hW.define (hW.scope_mono hle₁ hi) hx hv) fun _ _ _ _ _ =>
        hW.pure fun _ _ => .normal
    | block hss =>
      exact hW.bind (hW.openScope hi) fun w₁ n n' _ hn => hrun ⟨hss, hl⟩ hn.1 hn.2
    | branch he hy =>
      obtain ⟨hle, hly⟩ := List.forall_mem_append.1 hl
      refine hW.bind (h.evaluate he hle hi) fun w₁ v v' hle₁ hv => ?_
      rw [hv.truthy]
      split
      · exact h.execute hy hly (hW.scope_mono hle₁ hi) fun x hx => hW.name_mono hle₁ (hname x hx)
      · exact hW.pure fun _ _ => .normal
    | branchElse he hy hn =>
      obtain ⟨hle, hrest⟩ := List.forall_mem_append.1 hl
      obtain ⟨hly, hln⟩ := List.forall_mem_append.1 hrest
      obtain ⟨hnamey, hnamen⟩ := List.forall_mem_append.1 hname
      refine hW.bind (h.evaluate he hle hi) fun w₁ v v' hle₁ hv => ?_
      rw [hv.truthy]
      split
      · exact h.execute hy hly (hW.scope_mono hle₁ hi) fun x hx => hW.name_mono hle₁ (hnamey x hx)
      · exact h.execute hn hln (hW.scope_mono hle₁ hi) fun x hx => hW.name_mono hle₁ (hnamen x hx)
    | loop he hb =>
      obtain ⟨hle, hlb⟩ := List.forall_mem_append.1 hl
      exact hW.repeatWhile (h.evaluate he hle hi) (h.execute hb hlb hi hname) rounds
    | function ht hps hss =>
      exact hW.bind (hW.declare hi (hname _ List.mem_cons_self) ht hps ⟨hss, hl⟩)
        fun _ _ _ _ _ => hW.pure fun _ _ => .normal
    | ret _ => exact hW.pure fun _ _ => .returned (.plain rfl)
    | retValue _ he =>
      exact hW.bind (h.evaluate he hl hi) fun _ _ _ _ hv =>
        hW.pure fun _ hle => .returned (hW.values_mono hle hv)
    | missing hhole => exact hW.throw (hW.malformed hhole)
    | unknown hhole => exact hW.throw (hW.malformed hhole)
    | stray hhole _ => exact hW.throw (hW.malformed hhole)

/-- **Evaluations of trees that are alike are related.** -/
theorem Lawful.runs (rounds depth : ℕ) : W.Runs ops ops' rounds depth depth := by
  induction depth with
  | zero =>
    exact ⟨fun _ _ _ _ _ _ => hW.throw hW.overflow, fun _ _ _ _ _ _ _ => hW.throw hW.overflow⟩
  | succ depth ih => exact ih.succ hW

/-- So are programs, statement by statement. -/
theorem Runs.program {limits limits' : Limits}
    (h : W.Runs ops ops' limits.rounds limits.depth limits'.depth)
    (hrounds : limits'.rounds = limits.rounds) {program program' : List Stmt}
    (hprogram : W.Code program program') (hscope : W.scope w globalScope globalScope)
    (hname : ∀ s ∈ program, ∀ x ∈ s.declared, W.name w globalScope globalScope x) :
    W.Steps w (fun _ _ _ => True) (runProgramWith ops limits program)
      (runProgramWith ops' limits' program') := by
  obtain ⟨hlike, hliterals⟩ := hprogram
  induction hlike generalizing w with
  | nil => exact hW.pure fun _ _ => trivial
  | cons hs _ ih =>
    obtain ⟨hls, hlrest⟩ := List.forall_mem_append.1 hliterals
    obtain ⟨hnames, hrest⟩ := List.forall_mem_cons.1 hname
    simp only [runProgramWith, hrounds]
    exact hW.bind (h.execute hs hls hscope hnames) fun w₁ _ _ hle _ =>
      ih (hW.scope_mono hle hscope) (fun s hs x hx => hW.name_mono hle (hrest s hs x hx)) hlrest

end

end Walk

end Treewalk
