import Treewalk.Proofs.Evaluation.Walk

/-!
# Running trees that are alike

Two runs of trees that are alike go the same way: they compute the same
values, print the same text and stop for the same reason, blamed on tokens
that are related. The states they reach differ only in the code of the
functions declared, which is alike again. The runs may even take their
operators from different tables, as long as these agree on the operators
that occur. A likeness is a walk with a single world, in which a scope is
related to itself (`Lawful.walk`).
-/

namespace Treewalk

open Machine

/-- What two runs may differ in. -/
structure Likeness where
  /-- Related tokens, by the role they play. -/
  token : Role → Token → Token → Prop
  /-- Whether places that are no program may occur. -/
  holes : Prop
  /-- Tokens that an error of a given cause may be blamed on. -/
  blame : RuntimeFault → Token → Token → Prop

namespace Likeness

variable (L : Likeness)

/-- Code that is alike. -/
abbrev Code : List Stmt → List Stmt → Prop := List.Forall₂ (Stmt.Like L.token L.holes)

/-- Stops for the same reason. -/
inductive Stops : Stop → Stop → Prop
  | error {t t' : Token} {cause : RuntimeFault} : L.blame cause t t' →
      Stops (.error ⟨t, cause⟩) (.error ⟨t', cause⟩)
  | stackOverflow : Stops .stackOverflow .stackOverflow
  | endless : Stops .endless .endless
  | malformed : L.holes → Stops .malformed .malformed

/-- States that differ only in the code of functions. -/
structure States (s s' : State) : Prop where
  store : s'.store = s.store
  code : List.Forall₂ L.Code s.code.toList s'.code.toList
  output : s'.output = s.output
  clock : s'.clock = s.clock

/-- Runs that ended in the same way, with related results. -/
inductive Ends {α : Type} (S : α → α → Prop) :
    EStateM.Result Stop State α → EStateM.Result Stop State α → Prop
  | ok {a a' : α} {s s' : State} : S a a' → L.States s s' → Ends S (.ok a s) (.ok a' s')
  | error {e e' : Stop} {s s' : State} : L.Stops e e' → L.States s s' →
      Ends S (.error e s) (.error e' s')

/-- Steps that end alike from states that are alike. -/
def Steps {α : Type} (S : α → α → Prop) (m m' : Machine α) : Prop :=
  ∀ s s', L.States s s' → L.Ends S (m s) (m' s')

variable {L} {α β : Type} {S : α → α → Prop} {S' : β → β → Prop} {m m' : Machine α}

/-! ## Sequences -/

theorem steps_pure {a a' : α} (h : S a a') : L.Steps S (pure a) (pure a') :=
  fun _ _ hs => .ok h hs

theorem steps_throw {e e' : Stop} (h : L.Stops e e') : L.Steps S (throw e) (throw e') :=
  fun _ _ hs => .error h hs

theorem Steps.bind {k k' : α → Machine β} (hm : L.Steps S m m')
    (hk : ∀ a a', S a a' → L.Steps S' (k a) (k' a')) : L.Steps S' (m >>= k) (m' >>= k') := by
  intro s s' hs
  have hrun := hm s s' hs
  change L.Ends S' (EStateM.bind m k s) (EStateM.bind m' k' s')
  unfold EStateM.bind
  generalize m s = r at hrun
  generalize m' s' = r' at hrun
  cases hrun with
  | ok ha hs₁ => exact hk _ _ ha _ _ hs₁
  | error he hs₁ => exact .error he hs₁

theorem Steps.imp {S₁ : α → α → Prop} (hm : L.Steps S m m') (h : ∀ a a', S a a' → S₁ a a') :
    L.Steps S₁ m m' := by
  intro s s' hs
  have hrun := hm s s' hs
  generalize m s = r, m' s' = r' at hrun ⊢
  cases hrun with
  | ok ha hs₁ => exact .ok (h _ _ ha) hs₁
  | error he hs₁ => exact .error he hs₁

/-! ## Steps of the machine -/

theorem steps_openScope (parent : ScopeId) : L.Steps Eq (openScope parent) (openScope parent) := by
  intro s s' hs
  refine .ok ?_ ⟨?_, hs.code, hs.output, hs.clock⟩
  · rw [hs.store]
  · exact congrArg (Store.create · (some parent)) hs.store

theorem steps_define (scope : ScopeId) (name : String) (v : Value) :
    L.Steps Eq (define scope name v) (define scope name v) := by
  intro s s' hs
  refine .ok rfl ⟨?_, hs.code, hs.output, hs.clock⟩
  exact congrArg (Store.define · scope name v) hs.store

theorem steps_print (v : Value) : L.Steps Eq (print v) (print v) := by
  intro s s' hs
  refine .ok rfl ⟨hs.store, hs.code, ?_, hs.clock⟩
  exact congrArg (· ++ (v.text ++ "\n")) hs.output

theorem steps_readClock : L.Steps Eq readClock readClock := by
  intro s s' hs
  -- both clocks give the same reading and go on alike
  rw [readClock, readClock, hs.clock]
  exact .ok rfl ⟨hs.store, hs.code, hs.output, rfl⟩

theorem steps_native (id : Nat) : L.Steps Eq (native id) (native id) := by
  unfold native
  split
  · exact steps_readClock.bind fun x _ hx => steps_pure (congrArg _ hx)
  · exact steps_pure rfl

theorem steps_ofExcept {o o' : Token} {x : Except RuntimeError α}
    (h : ∀ e, x = .error e → L.blame e.cause o o') :
    L.Steps Eq (ofExcept (blamedOn o x)) (ofExcept (blamedOn o' x)) := by
  cases x with
  | ok a => exact steps_pure rfl
  | error e => exact steps_throw (.error (h e rfl))

theorem steps_unary {o o' : Token} {v : Value} (hkind : o'.kind = o.kind)
    (h : ∀ e, applyUnary o v = .error e → L.blame e.cause o o') :
    L.Steps Eq (Operators.standard.unary o v) (Operators.standard.unary o' v) := by
  have hself : applyUnary o v = blamedOn o (applyUnary o v) := applyUnary_eq_blamedOn rfl v
  have hother := applyUnary_eq_blamedOn hkind v
  have hsteps := steps_ofExcept h
  rwa [← hself, ← hother] at hsteps

theorem steps_binary {o o' : Token} {v w : Value} (hkind : o'.kind = o.kind)
    (hlexeme : o'.lexeme = o.lexeme)
    (h : ∀ e, applyBinary o v w = .error e → L.blame e.cause o o') :
    L.Steps Eq (Operators.standard.binary o v w) (Operators.standard.binary o' v w) := by
  have hself : applyBinary o v w = blamedOn o (applyBinary o v w) :=
    applyBinary_eq_blamedOn rfl rfl v w
  have hother := applyBinary_eq_blamedOn hkind hlexeme v w
  have hsteps := steps_ofExcept h
  rwa [← hself, ← hother] at hsteps

theorem code_getD {bodies bodies' : List (List Stmt)} (h : List.Forall₂ L.Code bodies bodies')
    (i : Nat) : L.Code (bodies[i]?.getD []) (bodies'[i]?.getD []) := by
  induction h generalizing i with
  | nil => simp
  | cons hbody _ ih =>
    cases i with
    | zero => exact hbody
    | succ i => exact ih i

/-- The body of a function is alike in states that are. -/
theorem steps_bodyOf (id : Nat) : L.Steps L.Code (bodyOf id) (bodyOf id) := by
  intro s s' hs
  have hbody := code_getD hs.code id
  rw [Array.getElem?_toList, Array.getElem?_toList] at hbody
  exact .ok hbody hs

theorem steps_declare {t t' : Token} {ps ps' : List Token} {ss ss' : List Stmt}
    (ht : t'.lexeme = t.lexeme) (hps : ps'.map (·.lexeme) = ps.map (·.lexeme))
    (hss : L.Code ss ss') (scope : ScopeId) :
    L.Steps Eq (declare t ps ss scope) (declare t' ps' ss' scope) := by
  intro s s' hs
  -- as much code on both sides, so the new function gets the same number
  have hsize : s'.code.size = s.code.size := by
    simpa using hs.code.length_eq.symm
  have hcode : List.Forall₂ L.Code (s.code.push ss).toList (s'.code.push ss').toList := by
    rw [Array.toList_push, Array.toList_push]
    exact List.rel_append hs.code (.cons hss .nil)
  simp only [declare, State.newFunction, ht, hps, hsize]
  exact steps_define scope t.lexeme _ _ _ ⟨hs.store, hcode, hs.output, hs.clock⟩

/-! ## What the evaluator asks of a relation -/

/-- A relation between tokens that the evaluator cannot tell apart, over two
tables of operators. -/
structure Lawful (L : Likeness) (ops ops' : Operators) : Prop where
  name {t t' : Token} : L.token .name t t' →
    t'.lexeme = t.lexeme ∧ L.blame (.undefinedVariable t.lexeme) t t'
  declared {t t' : Token} : L.token .declared t t' → t'.lexeme = t.lexeme
  paren {t t' : Token} : L.token .paren t t' →
    L.blame .notCallable t t' ∧ ∀ n k, L.blame (.wrongArity n k) t t'
  connective {t t' : Token} : L.token .connective t t' → t'.kind = t.kind
  unary {o o' : Token} (v : Value) : L.token .unary o o' →
    L.Steps Eq (ops.unary o v) (ops'.unary o' v)
  binary {o o' : Token} (v w : Value) : L.token .binary o o' →
    L.Steps Eq (ops.binary o v w) (ops'.binary o' v w)

/-- The walk of a likeness. -/
def walk (L : Likeness) : Walk Walk.Still where
  Steps w Q m m' := L.Steps (Q w) m m'
  scope _ i i' := i = i'
  name _ _ _ _ := True
  literal _ := True
  token := L.token
  holes := L.holes
  stop := L.Stops

theorem values_walk (w : Walk.Still) : L.walk.values w = Eq := Value.agree_eq

theorem Steps.any {m m' : Machine Unit} (h : L.Steps Eq m m') :
    L.Steps (fun _ _ => True) m m' :=
  h.imp fun _ _ _ => trivial

section

variable {ops ops' : Operators} (hL : L.Lawful ops ops')
include hL

theorem Lawful.lexemes {ps ps' : List Token} (h : List.Forall₂ (L.token .declared) ps ps') :
    ps'.map (·.lexeme) = ps.map (·.lexeme) := by
  induction h with
  | nil => rfl
  | cons ht _ ih => rw [List.map_cons, List.map_cons, hL.declared ht, ih]

theorem steps_read {t t' : Token} (ht : L.token .name t t') (scope : ScopeId) :
    L.Steps Eq (read scope t) (read scope t') := by
  intro s s' hs
  obtain ⟨hlexeme, hblame⟩ := hL.name ht
  rw [Machine.read, Machine.read, hs.store, Store.read, Store.read, hlexeme]
  cases s.store.get? scope t.lexeme with
  | some v => exact .ok rfl hs
  | none => exact .error (.error hblame) hs

theorem steps_assign {t t' : Token} (ht : L.token .name t t') (scope : ScopeId) (v : Value) :
    L.Steps Eq (assign scope t v) (assign scope t' v) := by
  intro s s' hs
  obtain ⟨hlexeme, hblame⟩ := hL.name ht
  rw [Machine.assign, Machine.assign, hs.store, Store.ownerOf, Store.ownerOf, hlexeme]
  cases s.store.owner? scope t.lexeme with
  | some owner => exact .ok rfl ⟨rfl, hs.code, hs.output, hs.clock⟩
  | none => exact .error (.error hblame) hs

theorem Lawful.walk : L.walk.Lawful ops ops' where
  scope_mono _ h := h
  name_mono _ h := h
  mono _ h := h
  literal w _ := by rw [values_walk]
  declared := hL.declared
  connective := hL.connective
  pure h := steps_pure (h .still trivial)
  throw := steps_throw
  bind hm hk := hm.bind fun a a' ha => hk .still a a' trivial ha
  overflow := .stackOverflow
  endless := .endless
  malformed := .malformed
  notCallable h := .error (hL.paren h).1
  wrongArity n k h := .error ((hL.paren h).2 n k)
  openScope hi := by
    subst hi
    exact (steps_openScope _).imp fun _ _ h => ⟨h, fun _ => trivial⟩
  define hi _ hv := by
    subst hi
    rw [values_walk] at hv
    exact hv ▸ (steps_define _ _ _).any
  read hi ht := by
    subst hi
    rw [funext values_walk]
    exact steps_read hL ht _
  assign hi ht hv := by
    subst hi
    rw [values_walk] at hv
    exact hv ▸ (steps_assign hL ht _ _).any
  print hv := by
    rw [values_walk] at hv
    exact hv ▸ (steps_print _).any
  declare hi _ ht hps hss := by
    subst hi
    exact (steps_declare (hL.declared ht) (hL.lexemes hps) hss.like _).any
  bodyOf id := (steps_bodyOf id).imp fun _ _ h => ⟨h, fun _ _ => trivial⟩
  native id := by
    rw [funext values_walk]
    exact steps_native id
  unary ho hv := by
    rw [funext values_walk] at *
    exact hv ▸ hL.unary _ ho
  binary ho hv hu := by
    rw [funext values_walk] at *
    exact hv ▸ hu ▸ hL.binary _ _ ho

/-- **Programs that are alike run alike.** -/
theorem steps_runProgram (limits : Limits) {program program' : List Stmt}
    (h : L.Code program program') :
    L.Steps Eq (runProgramWith ops limits program) (runProgramWith ops' limits program') := by
  have hruns := hL.walk.runs limits.rounds limits.depth
  have hcode : L.walk.Code program program' := ⟨h, fun _ _ => trivial⟩
  have hsteps := hruns.program hL.walk (w := .still) rfl hcode rfl fun _ _ _ _ => trivial
  exact hsteps.imp fun _ _ _ => rfl

end

end Likeness

end Treewalk
