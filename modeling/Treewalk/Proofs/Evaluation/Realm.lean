import Treewalk.Proofs.Evaluation.Walk
import Treewalk.Proofs.Scope.Store
import Mathlib.Data.Nat.Basic

/-!
# What every evaluation keeps to

A realm says which scopes an evaluation may use, which names it may declare
in them, and a law that the state obeys all the while. If the small steps of
the machine keep to a realm (`Lawful`), so does every evaluation, however it
ends: with a value, with a `return`, with an error or for want of room. A
realm is a walk that looks at one run only (`Lawful.walk`), and its worlds are
the numbers of scopes created so far. A call leaves the scope it is made in
for the one of the declaration, and takes the code it runs from the state; so
a realm has to know the scopes that values keep, and the law the code.
-/

namespace Treewalk

open Machine

/-- The number of scopes created so far. -/
abbrev State.size (s : State) : ℕ := s.store.scopes.size

/-- The state that a run leaves behind, in whatever way it ends. -/
def Machine.final {α : Type} : EStateM.Result Stop State α → State
  | .ok _ s => s
  | .error _ s => s

/-- What an evaluation may use. -/
structure Realm where
  /-- What holds of the state all the time. -/
  law : State → Prop
  /-- The scopes that may be used, once there are so many in all. -/
  scope : ℕ → ScopeId → Prop
  /-- The names that may be declared in a scope. -/
  name : ScopeId → String → Prop
  /-- The values that may be literals. -/
  literal : Value → Prop

namespace Realm

variable (D : Realm)

/-- A value that keeps no scope but one that may be used. -/
def Holds (n : ℕ) (v : Value) : Prop := ∀ k, v.scope? = some k → D.scope n k

/-- A completion whose value keeps no scope but one that may be used. -/
def Completes (n : ℕ) : Completion → Prop
  | .normal => True
  | .returned v => D.Holds n v

/-- A realm that the small steps of the machine keep to. -/
structure Lawful : Prop where
  mono {n n' : ℕ} {i : ScopeId} : n ≤ n' → D.scope n i → D.scope n' i
  literal {v : Value} (n : ℕ) : D.literal v → D.Holds n v
  code {s : State} (id : ℕ) : D.law s → ∀ v ∈ Stmt.literalsAll (s.body id), D.literal v
  /-- Creating a scope, in which any name may be declared. -/
  opened {s : State} {p : ScopeId} : D.law s → D.scope s.size p →
    D.law { s with store := s.store.create (some p) } ∧ D.scope (s.size + 1) s.size ∧
      ∀ x, D.name s.size x
  read {s : State} {i : ScopeId} {x : String} {v : Value} : D.law s → D.scope s.size i →
    s.store.get? i x = some v → D.Holds s.size v
  /-- Declaring a name. -/
  defined {s : State} {i : ScopeId} {x : String} {v : Value} : D.law s → D.scope s.size i →
    D.name i x → D.Holds s.size v → D.law { s with store := s.store.define i x v }
  /-- Giving a variable another value. -/
  assigned {s : State} {i owner : ScopeId} {x : String} {v : Value} : D.law s →
    D.scope s.size i → s.store.owner? i x = some owner → D.Holds s.size v →
    D.law { s with store := s.store.define owner x v }
  /-- Numbering the body of a function. -/
  numbered {s : State} {body : List Stmt} : D.law s →
    (∀ v ∈ Stmt.literalsAll body, D.literal v) → D.law { s with code := s.code.push body }
  printed {s : State} (text : String) : D.law s → D.law (s.write text)
  timed {s : State} (clock : Clock) : D.law s → D.law { s with clock := clock }

/-- A run that ended within the realm, with at least `n` scopes. -/
inductive Ends {α : Type} (n : ℕ) (Q : ℕ → α → Prop) : EStateM.Result Stop State α → Prop
  | ok {a : α} {s : State} : D.law s → n ≤ s.size → Q s.size a → Ends n Q (.ok a s)
  | error {e : Stop} {s : State} : D.law s → n ≤ s.size → Ends n Q (.error e s)

/-- A step that ends within the realm from wherever there are `n` scopes, and
loses none. -/
def Stays {α : Type} (n : ℕ) (Q : ℕ → α → Prop) (m : Machine α) : Prop :=
  ∀ s, D.law s → n ≤ s.size → D.Ends s.size Q (m s)

variable {D} {α β : Type} {n n' : ℕ} {Q Q' : ℕ → α → Prop} {S : ℕ → β → Prop}

theorem Ends.of_le {r : EStateM.Result Stop State α} (h : D.Ends n' Q r) (hle : n ≤ n') :
    D.Ends n Q r := by
  cases h with
  | ok hlaw hn hQ => exact .ok hlaw (Nat.le_trans hle hn) hQ
  | error hlaw hn => exact .error hlaw (Nat.le_trans hle hn)

theorem Ends.final {r : EStateM.Result Stop State α} (h : D.Ends n Q r) :
    D.law (Machine.final r) ∧ n ≤ (Machine.final r).size := by
  cases h with
  | ok hlaw hn _ => exact ⟨hlaw, hn⟩
  | error hlaw hn => exact ⟨hlaw, hn⟩

theorem Ends.value {a : α} {s : State} (h : D.Ends n Q (.ok a s)) : Q s.size a := by
  cases h with
  | ok _ _ hQ => exact hQ

/-! ## Sequences -/

theorem stays_pure {a : α} (h : ∀ n', n ≤ n' → Q n' a) : D.Stays n Q (pure a) :=
  fun _ hlaw hn => .ok hlaw (Nat.le_refl _) (h _ hn)

theorem stays_throw (e : Stop) : D.Stays n Q (throw e : Machine α) :=
  fun _ hlaw _ => .error hlaw (Nat.le_refl _)

theorem Stays.bind {m : Machine α} {k : α → Machine β} (hm : D.Stays n Q m)
    (hk : ∀ n' a, n ≤ n' → Q n' a → D.Stays n' S (k a)) : D.Stays n S (m >>= k) := by
  intro s hlaw hn
  have hrun := hm s hlaw hn
  change D.Ends s.size S (EStateM.bind m k s)
  unfold EStateM.bind
  generalize m s = r at hrun
  cases hrun with
  | ok hlaw₁ hn₁ ha =>
    exact (hk _ _ (Nat.le_trans hn hn₁) ha _ hlaw₁ (Nat.le_refl _)).of_le hn₁
  | error hlaw₁ hn₁ => exact .error hlaw₁ hn₁

theorem Stays.imp {m : Machine α} (hm : D.Stays n Q m) (h : ∀ n a, Q n a → Q' n a) :
    D.Stays n Q' m := by
  intro s hlaw hn
  have hrun := hm s hlaw hn
  generalize m s = r at hrun ⊢
  cases hrun with
  | ok hlaw₁ hn₁ ha => exact .ok hlaw₁ hn₁ (h _ _ ha)
  | error hlaw₁ hn₁ => exact .error hlaw₁ hn₁

theorem holds_of_scope? {v : Value} (h : v.scope? = none) : D.Holds n v := by
  intro k hk
  rw [h] at hk
  cases hk

/-! ## The walk of a realm -/

/-- The walk that looks at the first run, and asks that it keeps to the
realm. -/
def walk (D : Realm) : Walk ℕ where
  Steps n Q m _ := D.Stays n (fun n a => ∃ a', Q n a a') m
  scope n i _ := D.scope n i
  name _ i _ x := D.name i x
  literal := D.literal
  token _ t t' := t' = t
  holes := True
  stop _ _ := True

/-- Values are related if the first keeps no scope but one that may be used. -/
theorem holds_iff {v : Value} : D.Holds n v ↔ ∃ v', D.walk.values n v v' := by
  constructor
  · exact fun h => ⟨v, .refl h⟩
  · rintro ⟨v', h⟩ k hk
    obtain ⟨_, hscope⟩ := h.related hk
    exact hscope

section

variable (hD : D.Lawful)
include hD

theorem Lawful.holds_mono {v : Value} (hle : n ≤ n') (h : D.Holds n v) : D.Holds n' v :=
  fun k hk => hD.mono hle (h k hk)

theorem stays_openScope {p : ScopeId} (hp : D.scope n p) :
    D.Stays n (fun n' inner => D.scope n' inner ∧ ∀ x, D.name inner x) (openScope p) := by
  intro s hlaw hn
  obtain ⟨hlaw', hscope, hname⟩ := hD.opened hlaw (hD.mono hn hp)
  have hsize : State.size { s with store := s.store.create (some p) } = s.size + 1 :=
    Store.size_create _ _
  refine .ok hlaw' ?_ ⟨?_, hname⟩
  · rw [hsize]
    exact Nat.le_succ _
  · rwa [hsize]

theorem stays_define {i : ScopeId} {x : String} {v : Value} (hi : D.scope n i) (hx : D.name i x)
    (hv : D.Holds n v) : D.Stays n (fun _ _ => True) (define i x v) := by
  intro s hlaw hn
  refine .ok (hD.defined hlaw (hD.mono hn hi) hx (hD.holds_mono hn hv)) ?_ trivial
  exact Nat.le_of_eq (Store.size_define _ _ _ _).symm

theorem stays_read {i : ScopeId} (t : Token) (hi : D.scope n i) :
    D.Stays n D.Holds (read i t) := by
  intro s hlaw hn
  rw [Machine.read, Store.read]
  cases h : s.store.get? i t.lexeme with
  | some v => exact .ok hlaw (Nat.le_refl _) (hD.read hlaw (hD.mono hn hi) h)
  | none => exact .error hlaw (Nat.le_refl _)

theorem stays_assign {i : ScopeId} {v : Value} (t : Token) (hi : D.scope n i)
    (hv : D.Holds n v) : D.Stays n (fun _ _ => True) (assign i t v) := by
  intro s hlaw hn
  rw [Machine.assign, Store.ownerOf]
  cases h : s.store.owner? i t.lexeme with
  | some owner =>
    refine .ok (hD.assigned hlaw (hD.mono hn hi) h (hD.holds_mono hn hv)) ?_ trivial
    exact Nat.le_of_eq (Store.size_define _ _ _ _).symm
  | none => exact .error hlaw (Nat.le_refl _)

theorem stays_print (v : Value) : D.Stays n (fun _ _ => True) (print v) :=
  fun _ hlaw _ => .ok (hD.printed _ hlaw) (Nat.le_refl _) trivial

/-- A new function keeps the scope it is declared in. -/
theorem stays_declare {i : ScopeId} {body : List Stmt} (t : Token) (params : List Token)
    (hi : D.scope n i) (hx : D.name i t.lexeme)
    (hbody : ∀ v ∈ Stmt.literalsAll body, D.literal v) :
    D.Stays n (fun _ _ => True) (declare t params body i) := by
  intro s hlaw hn
  refine stays_define hD hi hx ?_ _ (hD.numbered hlaw hbody) hn
  intro k hk
  obtain rfl := Option.some.inj hk
  exact hi

theorem stays_native (id : ℕ) : D.Stays n D.Holds (native id) := by
  unfold native
  split
  · have hclock : D.Stays n (fun _ _ => True) readClock := fun s hlaw hn =>
      .ok (hD.timed _ hlaw) (Nat.le_refl _) trivial
    change D.Stays n D.Holds (readClock >>= fun x => pure (.number x))
    exact hclock.bind fun _ x _ _ => stays_pure fun _ _ => holds_of_scope? rfl
  · exact stays_pure fun _ _ => holds_of_scope? rfl

omit hD in
theorem stays_ofExcept {x : Except RuntimeError Value} (h : ∀ w, x = .ok w → w.scope? = none) :
    D.Stays n D.Holds (ofExcept x) := by
  cases x with
  | ok w => exact stays_pure fun _ _ => holds_of_scope? (h w rfl)
  | error e => exact stays_throw _

omit hD in
theorem Stays.values {m : Machine Value} (h : D.Stays n D.Holds m) :
    D.walk.Steps n D.walk.values m m :=
  h.imp fun _ _ => holds_iff.1

omit hD in
theorem Stays.any {m : Machine Unit} (h : D.Stays n (fun _ _ => True) m) :
    D.walk.Steps n (fun _ _ _ => True) m m :=
  h.imp fun _ a _ => ⟨a, trivial⟩

theorem Lawful.walk : D.walk.Lawful .standard .standard where
  scope_mono := hD.mono
  name_mono _ h := h
  mono hle h s hlaw hn := h s hlaw (Nat.le_trans hle hn)
  literal n h := .refl (hD.literal n h)
  declared h := by rw [h]
  connective h := by rw [h]
  pure h := stays_pure fun n hn => ⟨_, h n hn⟩
  throw _ := stays_throw _
  bind hm hk := hm.bind fun n a hn ⟨a', ha⟩ => hk n a a' hn ha
  overflow := trivial
  endless := trivial
  malformed _ := trivial
  notCallable _ := trivial
  wrongArity _ _ _ := trivial
  openScope hi := (stays_openScope hD hi).imp fun _ inner h => ⟨inner, h⟩
  define hi hx hv := (stays_define hD hi hx (holds_iff.2 ⟨_, hv⟩)).any
  read hi _ := (stays_read hD _ hi).values
  assign hi _ hv := (stays_assign hD _ hi (holds_iff.2 ⟨_, hv⟩)).any
  print _ := (stays_print hD _).any
  declare hi hx _ _ hss := (stays_declare hD _ _ hi hx hss.literals).any
  bodyOf id s hlaw _ := .ok hlaw (Nat.le_refl _)
    ⟨_, Stmt.forall₂_like_self trivial _ fun _ _ _ => rfl, hD.code id hlaw⟩
  native id := (stays_native hD id).values
  unary ho hv := ho ▸ Walk.steps_standard_unary (fun _ hx _ => (stays_ofExcept hx).values) hv
  binary ho hv hu :=
    ho ▸ Walk.steps_standard_binary (fun _ hx _ => (stays_ofExcept hx).values) hv hu

/-! ## Evaluation -/

/-- **Every evaluation keeps to a lawful realm.** -/
theorem stays_evaluate_execute (rounds depth : ℕ) :
    (∀ e : Expr, (∀ v ∈ e.literals, D.literal v) → ∀ n i, D.scope n i →
      D.Stays n D.Holds (evaluate rounds depth e i)) ∧
    ∀ s : Stmt, (∀ v ∈ s.literals, D.literal v) → ∀ n i, D.scope n i →
      (∀ x ∈ s.declared, D.name i x) → D.Stays n D.Completes (execute rounds depth s i) := by
  have hruns := hD.walk.runs rounds depth
  constructor
  · intro e he n i hi
    have hlike : Expr.Like D.walk.token D.walk.holes e e :=
      Expr.like_self trivial e fun _ _ _ => rfl
    have hsteps : D.walk.Steps n D.walk.values (evaluate rounds depth e i)
        (evaluate rounds depth e i) := hruns.evaluate hlike he hi
    exact hsteps.imp fun _ _ => holds_iff.2
  · intro s hs n i hi hname
    have hlike : Stmt.Like D.walk.token D.walk.holes s s :=
      Stmt.like_self trivial s fun _ _ _ => rfl
    have hsteps : D.walk.Steps n D.walk.completions (execute rounds depth s i)
        (execute rounds depth s i) := hruns.execute hlike hs hi hname
    refine hsteps.imp fun n completion hc => ?_
    obtain ⟨completion', hc⟩ := hc
    cases hc with
    | normal => trivial
    | returned hv => exact holds_iff.2 ⟨_, hv⟩

/-- So does every program, statement by statement. -/
theorem stays_runProgram (limits : Limits) {n : ℕ} (program : List Stmt)
    (hscope : D.scope n globalScope)
    (h : ∀ s ∈ program, (∀ v ∈ s.literals, D.literal v) ∧ ∀ x ∈ s.declared, D.name globalScope x) :
    D.Stays n (fun _ _ => True) (runProgram limits program) := by
  have hcode : D.walk.Code program program := by
    refine ⟨Stmt.forall₂_like_self trivial _ fun _ _ _ => rfl, fun v hv => ?_⟩
    rw [Stmt.literalsAll_eq_flatMap] at hv
    obtain ⟨s, hs, hv⟩ := List.mem_flatMap.1 hv
    exact (h s hs).1 v hv
  have hsteps := (hD.walk.runs limits.rounds limits.depth).program hD.walk rfl hcode hscope
    fun s hs => (h s hs).2
  exact hsteps.imp fun _ _ _ => trivial

end

end Realm

end Treewalk
