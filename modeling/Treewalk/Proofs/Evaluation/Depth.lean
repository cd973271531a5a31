import Treewalk.Proofs.Evaluation.Realm

/-!
# Runs that are cut short

The allowed depth decides whether a run gets through, and nothing else. A
run that is given less depth than another one is the same run, or it is the
start of the other one: it overflows, and what it has printed by then the
other one prints too.
-/

namespace Treewalk

open Machine

variable {α β : Type}

/-- A state whose printed text goes on where another one's ends. -/
def Later (s t : State) : Prop := ∃ text, t.output = s.output ++ text

theorem Later.refl (s : State) : Later s s := ⟨"", String.append_empty.symm⟩

theorem Later.trans {s t u : State} (hst : Later s t) (htu : Later t u) : Later s u := by
  obtain ⟨a, ha⟩ := hst
  obtain ⟨b, hb⟩ := htu
  exact ⟨a ++ b, by rw [hb, ha, String.append_assoc]⟩

/-- The realm in which text is only ever added. -/
def Later.realm (s : State) : Realm where
  law := Later s
  scope _ _ := True
  name _ _ := True
  literal _ := True

theorem Later.lawful_realm (s : State) : (realm s).Lawful where
  mono _ _ := trivial
  literal _ _ _ _ := trivial
  code _ _ _ _ := trivial
  opened h _ := ⟨h, trivial, fun _ => trivial⟩
  read _ _ _ _ _ := trivial
  defined h _ _ _ := h
  assigned h _ _ _ := h
  numbered h _ := h
  printed text h := h.trans ⟨text, rfl⟩
  timed _ h := h

/-- A result that text was only added for since a state. -/
inductive Adds (S : α → α → Prop) (s : State) : EStateM.Result Stop State α → Prop
  | ok {a a' : α} {t : State} : S a a' → Later s t → Adds S s (.ok a' t)
  | error {e : Stop} {t : State} : Later s t → Adds S s (.error e t)

/-- Results of the same run, or of a run and what is left of it for want of
depth. -/
inductive CutShort (S : α → α → Prop) :
    EStateM.Result Stop State α → EStateM.Result Stop State α → Prop
  | ok {a a' : α} {s : State} : S a a' → CutShort S (.ok a s) (.ok a' s)
  | error {e : Stop} {s : State} : CutShort S (.error e s) (.error e s)
  | cut {s : State} {r : EStateM.Result Stop State α} : Adds S s r →
      CutShort S (.error .stackOverflow s) r

/-- A step that only adds to the text, and another one that may be cut short
of it. -/
structure Cut (S : α → α → Prop) (m m' : Machine α) : Prop where
  run : ∀ s, CutShort S (m s) (m' s)
  adds : ∀ s, Adds S s (m' s)

variable {S S₁ : α → α → Prop} {S' : β → β → Prop}

theorem Adds.later {s : State} {r : EStateM.Result Stop State α} (h : Adds S s r) :
    Later s (final r) := by
  cases h with
  | ok _ hlater => exact hlater
  | error hlater => exact hlater

theorem Adds.trans {s t : State} {r : EStateM.Result Stop State α} (h : Adds S t r)
    (hst : Later s t) : Adds S s r := by
  cases h with
  | ok ha hlater => exact .ok ha (hst.trans hlater)
  | error hlater => exact .error (hst.trans hlater)

theorem Adds.imp {s : State} {r : EStateM.Result Stop State α} (hr : Adds S s r)
    (h : ∀ a a', S a a' → S₁ a a') : Adds S₁ s r := by
  cases hr with
  | ok ha hlater => exact .ok (h _ _ ha) hlater
  | error hlater => exact .error hlater

theorem adds_of_later {s : State} {r : EStateM.Result Stop State α} (h : Later s (final r))
    (hS : ∀ a, S a a) : Adds S s r := by
  cases r with
  | ok a t => exact .ok (hS a) h
  | error e t => exact .error h

/-- What a run prints that is cut short, the whole run prints too. -/
theorem CutShort.later {r r' : EStateM.Result Stop State α} (h : CutShort S r r') :
    Later (final r) (final r') := by
  cases h with
  | ok _ => exact Later.refl _
  | error => exact Later.refl _
  | cut hadds => exact hadds.later

/-! ## Sequences -/

theorem cut_self {m : Machine α} (h : ∀ s, Later s (final (m s))) : Cut Eq m m where
  run s := by
    cases m s with
    | ok a t => exact .ok rfl
    | error e t => exact .error
  adds s := adds_of_later (h s) fun _ => rfl

theorem cut_pure {a a' : α} (h : S a a') : Cut S (pure a) (pure a') :=
  ⟨fun _ => .ok h, fun s => .ok h (Later.refl s)⟩

theorem cut_throw (e : Stop) : Cut S (throw e : Machine α) (throw e) :=
  ⟨fun _ => .error, fun s => .error (Later.refl s)⟩

theorem Adds.bind {m : Machine α} {k : α → Machine β} {s t : State} (hm : Adds S s (m t))
    (hk : ∀ a a', S a a' → ∀ t, Adds S' t (k a' t)) : Adds S' s ((m >>= k) t) := by
  change Adds S' s (EStateM.bind m k t)
  unfold EStateM.bind
  generalize m t = r at hm
  cases hm with
  | ok ha hlater => exact (hk _ _ ha _).trans hlater
  | error hlater => exact .error hlater

theorem Cut.bind {m m' : Machine α} {k k' : α → Machine β} (hm : Cut S m m')
    (hk : ∀ a a', S a a' → Cut S' (k a) (k' a')) : Cut S' (m >>= k) (m' >>= k') := by
  -- the second run goes on by itself, also where the first one was cut short
  have hadds (s t : State) (h : Adds S s (m' t)) : Adds S' s ((m' >>= k') t) :=
    h.bind fun a a' ha => (hk a a' ha).adds
  refine ⟨fun s => ?_, fun s => hadds s s (hm.adds s)⟩
  have hrun := hm.run s
  have hrest (t : State) : Adds S t (m' s) → Adds S' t (EStateM.bind m' k' s) := hadds t s
  change CutShort S' (EStateM.bind m k s) (EStateM.bind m' k' s)
  unfold EStateM.bind at hrest ⊢
  generalize m s = r, m' s = r' at hrun hrest
  cases hrun with
  | ok ha => exact (hk _ _ ha).run _
  | error => exact .error
  | cut h => exact .cut (hrest _ h)

/-- A sequence of steps with the same results. -/
theorem Cut.bindEq {m m' : Machine α} {k k' : α → Machine β} (hm : Cut Eq m m')
    (hk : ∀ a, Cut S' (k a) (k' a)) : Cut S' (m >>= k) (m' >>= k') :=
  hm.bind fun a _ h => h ▸ hk a

theorem Cut.imp {m m' : Machine α} (hm : Cut S m m') (h : ∀ a a', S a a' → S₁ a a') :
    Cut S₁ m m' where
  run s := by
    have hrun := hm.run s
    generalize m s = r, m' s = r' at hrun ⊢
    cases hrun with
    | ok ha => exact .ok (h _ _ ha)
    | error => exact .error
    | cut hadds => exact .cut (hadds.imp h)
  adds s := (hm.adds s).imp h

/-! ## Steps of the machine -/

theorem cut_openScope (i : ScopeId) : Cut Eq (openScope i) (openScope i) := cut_self Later.refl

theorem cut_read (i : ScopeId) (t : Token) : Cut Eq (read i t) (read i t) := by
  refine cut_self fun s => ?_
  unfold Machine.read
  split
  · exact Later.refl s
  · exact Later.refl s

theorem cut_assign (i : ScopeId) (t : Token) (v : Value) :
    Cut Eq (assign i t v) (assign i t v) := by
  refine cut_self fun s => ?_
  unfold Machine.assign
  split
  · exact Later.refl s
  · exact Later.refl s

theorem cut_native (id : ℕ) : Cut Eq (native id) (native id) := by
  unfold native
  split
  · exact cut_self Later.refl
  · exact cut_pure rfl

theorem cut_ofExcept (x : Except RuntimeError α) : Cut Eq (ofExcept x) (ofExcept x) := by
  cases x with
  | ok a => exact cut_pure rfl
  | error e => exact cut_throw _

theorem cut_define (i : ScopeId) (x : String) (v : Value) :
    Cut Eq (define i x v) (define i x v) := cut_self Later.refl

theorem cut_print (v : Value) : Cut Eq (print v) (print v) := cut_self fun _ => ⟨_, rfl⟩

theorem cut_declare (t : Token) (params : List Token) (body : List Stmt) (i : ScopeId) :
    Cut Eq (declare t params body i) (declare t params body i) := cut_self Later.refl

theorem cut_bodyOf (id : ℕ) : Cut Eq (bodyOf id) (bodyOf id) := cut_self Later.refl

/-! ## The walk of a run and a longer one -/

/-- The walk of a run that may be cut short of another one. -/
def Cut.walk : Walk Walk.Still where
  Steps w Q m m' := Cut (Q w) m m'
  scope _ i i' := i = i'
  name _ _ _ _ := True
  literal _ := True
  token _ t t' := t' = t
  holes := True
  stop e e' := e' = e

theorem Cut.values_walk (w : Walk.Still) : Cut.walk.values w = Eq := Value.agree_eq

theorem Cut.any {m m' : Machine Unit} (h : Cut Eq m m') : Cut (fun _ _ => True) m m' :=
  h.imp fun _ _ _ => trivial

theorem Cut.lawful_walk : Cut.walk.Lawful .standard .standard where
  scope_mono _ h := h
  name_mono _ h := h
  mono _ h := h
  literal w _ := by rw [Cut.values_walk]
  declared h := by rw [h]
  connective h := by rw [h]
  pure h := cut_pure (h .still trivial)
  throw h := h ▸ cut_throw _
  bind hm hk := hm.bind fun a a' ha => hk .still a a' trivial ha
  overflow := rfl
  endless := rfl
  malformed _ := rfl
  notCallable h := congrArg (fun t => Stop.error ⟨t, .notCallable⟩) h
  wrongArity n k h := congrArg (fun t => Stop.error ⟨t, .wrongArity n k⟩) h
  openScope hi := by
    subst hi
    exact (cut_openScope _).imp fun _ _ h => ⟨h, fun _ => trivial⟩
  define hi _ hv := by
    subst hi
    rw [Cut.values_walk] at hv
    exact hv ▸ (cut_define _ _ _).any
  read hi ht := by
    subst hi ht
    rw [funext Cut.values_walk]
    exact cut_read _ _
  assign hi ht hv := by
    subst hi ht
    rw [Cut.values_walk] at hv
    exact hv ▸ (cut_assign _ _ _).any
  print hv := by
    rw [Cut.values_walk] at hv
    exact hv ▸ (cut_print _).any
  declare hi _ ht hps hss := by
    subst hi ht
    obtain rfl := eq_of_forall₂ (fun _ _ => Eq.symm) hps
    obtain rfl := Stmt.eq_of_forall₂_like (fun _ _ _ => Eq.symm) _ _ hss.like
    exact (cut_declare _ _ _ _).any
  bodyOf id := (cut_bodyOf id).imp fun _ _ h =>
    ⟨h ▸ Stmt.forall₂_like_self trivial _ fun _ _ _ => rfl, fun _ _ => trivial⟩
  native id := by
    rw [funext Cut.values_walk]
    exact cut_native id
  unary ho hv := by
    refine ho ▸ Walk.steps_standard_unary (fun x _ _ => ?_) hv
    rw [funext Cut.values_walk]
    exact cut_ofExcept x
  binary ho hv hu := by
    refine ho ▸ Walk.steps_standard_binary (fun x _ _ => ?_) hv hu
    rw [funext Cut.values_walk]
    exact cut_ofExcept x

theorem cut_repeatWhile {test test' : Machine Value} {body body' : Machine Completion}
    (htest : Cut Eq test test') (hbody : Cut Eq body body') (rounds : ℕ) :
    Cut Eq (repeatWhile test body rounds) (repeatWhile test' body' rounds) := by
  rw [← Value.agree_eq] at htest
  rw [← Completion.agree_eq] at hbody ⊢
  exact Cut.lawful_walk.repeatWhile (w := .still) htest hbody rounds

/-! ## Evaluation -/

theorem later_evaluate (rounds depth : ℕ) (e : Expr) (i : ScopeId) (s : State) :
    Later s (final (evaluate rounds depth e i s)) :=
  ((Realm.stays_evaluate_execute (Later.lawful_realm s) rounds depth).1 e (fun _ _ => trivial) 0 i
    trivial s (Later.refl s) (Nat.zero_le _)).final.1

theorem later_execute (rounds depth : ℕ) (st : Stmt) (i : ScopeId) (s : State) :
    Later s (final (execute rounds depth st i s)) :=
  ((Realm.stays_evaluate_execute (Later.lawful_realm s) rounds depth).2 st (fun _ _ => trivial) 0 i
    trivial (fun _ _ => trivial) s (Later.refl s) (Nat.zero_le _)).final.1

/-- **Less depth can only cut a run short**: where there is none left, the
other run goes on, and adds to the text. -/
theorem Cut.runs (rounds : ℕ) {depth depth' : ℕ} (h : depth ≤ depth') :
    Cut.walk.Runs .standard .standard rounds depth depth' := by
  induction depth generalizing depth' with
  | zero =>
    constructor
    · intro e e' _ _ w i i' _
      have hadds (s : State) : Adds (Value.Agree Eq) s (evaluate rounds depth' e' i' s) :=
        adds_of_later (later_evaluate rounds depth' e' i' s) fun _ => .refl fun _ _ => rfl
      exact ⟨fun s => .cut (hadds s), hadds⟩
    · intro st st' _ _ w i i' _ _
      have hadds (s : State) : Adds (Completion.Agree Eq) s (execute rounds depth' st' i' s) :=
        adds_of_later (later_execute rounds depth' st' i' s) fun c => by rw [Completion.agree_eq]
      exact ⟨fun s => .cut (hadds s), hadds⟩
  | succ depth ih =>
    obtain ⟨depth', rfl⟩ := Nat.exists_eq_succ_of_ne_zero (Nat.ne_zero_of_lt h)
    exact (ih (Nat.le_of_succ_le_succ h)).succ Cut.lawful_walk

theorem cut_evaluate_execute (rounds : ℕ) {depth depth' : ℕ} (h : depth ≤ depth') :
    (∀ e i, Cut Eq (evaluate rounds depth e i) (evaluate rounds depth' e i)) ∧
      ∀ st i, Cut Eq (execute rounds depth st i) (execute rounds depth' st i) := by
  rw [← Value.agree_eq, ← Completion.agree_eq]
  have hruns := Cut.runs rounds h
  constructor
  · intro e i
    have hlike : Expr.Like Cut.walk.token Cut.walk.holes e e :=
      Expr.like_self trivial e fun _ _ _ => rfl
    exact hruns.evaluate hlike (fun _ _ => trivial) (w := .still) rfl
  · intro st i
    have hlike : Stmt.Like Cut.walk.token Cut.walk.holes st st :=
      Stmt.like_self trivial st fun _ _ _ => rfl
    exact hruns.execute hlike (fun _ _ => trivial) (w := .still) rfl fun _ _ => trivial

/-- So can less depth for a program. -/
theorem cut_runProgram (limits : Limits) {deeper : ℕ} (h : limits.depth ≤ deeper)
    (program : List Stmt) :
    Cut Eq (runProgram limits program) (runProgram { limits with depth := deeper } program) := by
  have hcode : Cut.walk.Code program program :=
    ⟨Stmt.forall₂_like_self trivial _ fun _ _ _ => rfl, fun _ _ => trivial⟩
  let limits' : Limits := { limits with depth := deeper }
  have hruns : Cut.walk.Runs .standard .standard limits.rounds limits.depth limits'.depth :=
    Cut.runs limits.rounds h
  have hsteps : Cut.walk.Steps .still (fun _ _ _ => True) (runProgram limits program)
      (runProgram limits' program) :=
    hruns.program Cut.lawful_walk rfl hcode rfl fun _ _ _ _ => trivial
  exact Cut.imp hsteps fun _ _ _ => rfl

/-! ## Runs that get through -/

/-- A run that ends for want of depth. -/
def Overflows (r : EStateM.Result Stop State α) : Prop := ∃ s, r = .error .stackOverflow s

/-- A run that gets through is the same with more depth. -/
theorem Cut.eq {m m' : Machine α} (h : Cut Eq m m') {s : State} (hs : ¬ Overflows (m s)) :
    m' s = m s := by
  have hrun := h.run s
  generalize m s = r, m' s = r' at hrun hs
  cases hrun with
  | ok ha => rw [ha]
  | error => rfl
  | cut _ => exact absurd ⟨_, rfl⟩ hs

end Treewalk
