import Treewalk.Proofs.Evaluation.Tidy
import Mathlib.Logic.Relation

/-!
# What evaluation can reach

A scope leads to its parent and to the scopes that the functions bound in it
were declared in; what can be reached that way from the scope an evaluation
runs in is all that the evaluation can use. Scopes that it cannot reach are
left as they are, and nothing it leaves behind leads to them: every scope
that can be reached afterwards from what it used, or from its result, is one
that it could reach from the start or one that it created.

It follows that two functions that reach no scope in common never do, however
often they are called and in whatever order, and that no call of the one
changes anything the other can see.
-/

namespace Treewalk

open Machine

namespace Store

variable {s s' : Store} {i j k : ScopeId}

/-- A scope leads to its parent, and to the scopes of the functions that are
bound in it. -/
inductive Links (s : Store) (i : ScopeId) : ScopeId → Prop
  | parent {scope : Scope} {p : ScopeId} :
      s.scope? i = some scope → scope.parent = some p → Links s i p
  | bound {scope : Scope} {b : String × Value} {k : ScopeId} :
      s.scope? i = some scope → b ∈ scope.bindings → b.2.scope? = some k → Links s i k

/-- The scopes that can be reached from a scope. -/
def Reaches (s : Store) : ScopeId → ScopeId → Prop := Relation.ReflTransGen s.Links

/-- The scopes that can be reached from a value. -/
def Reached (s : Store) (v : Value) (k : ScopeId) : Prop :=
  ∃ i, v.scope? = some i ∧ s.Reaches i k

theorem Links.of_eq (h : s.Links i k) (heq : s'.scope? i = s.scope? i) : s'.Links i k := by
  cases h with
  | parent hscope hp => exact .parent (heq.trans hscope) hp
  | bound hscope hb hk => exact .bound (heq.trans hscope) hb hk

/-- What holds of a scope and is passed on holds of all it reaches. -/
theorem Reaches.induction {P : ScopeId → Prop} (hlinks : ∀ j k, P j → s.Links j k → P k)
    (hi : P i) (h : s.Reaches i k) : P k := by
  induction h with
  | refl => exact hi
  | tail _ hlink ih => exact hlinks _ _ ih hlink

/-- If no scope that can be reached has changed, the same scopes can be
reached. -/
theorem reaches_iff (h : ∀ k, s.Reaches i k → s'.scope? k = s.scope? k) :
    s'.Reaches i k ↔ s.Reaches i k := by
  constructor
  · intro hk
    induction hk with
    | refl => exact .refl
    | tail _ hlink ih => exact ih.tail (hlink.of_eq (h _ ih).symm)
  · intro hk
    induction hk with
    | refl => exact .refl
    | tail hreach hlink ih => exact ih.tail (hlink.of_eq (h _ hreach))

end Store

theorem State.Tidy.links_lt {s : State} (h : s.Tidy) {i k : ScopeId} (hlink : s.store.Links i k) :
    k < s.size := by
  cases hlink with
  | parent hscope hp => exact h.parent_lt hscope hp
  | bound hscope hb hk => exact h.values _ _ hscope _ hb _ hk

theorem State.Tidy.reaches_lt {s : State} (h : s.Tidy) {i k : ScopeId} (hi : i < s.size)
    (hreach : s.store.Reaches i k) : k < s.size :=
  hreach.induction (P := (· < s.size)) (fun _ _ _ hlink => h.links_lt hlink) hi

/-! ## Fences -/

/-- Scopes of `R`, or created since state `s`, when there are `n` in all. -/
def Inside (s : State) (R : ScopeId → Prop) (n : ℕ) (j : ScopeId) : Prop :=
  R j ∨ s.size ≤ j ∧ j < n

/-- What becomes of state `s` while nothing but scopes of `R` and new ones are
used. -/
structure Fenced (s : State) (R : ScopeId → Prop) (t : State) : Prop where
  plain : t.PlainCode
  size_le : s.size ≤ t.size
  untouched : ∀ j, j < s.size → ¬ R j → t.store.scope? j = s.store.scope? j
  closed : ∀ j k, Inside s R t.size j → t.store.Links j k → Inside s R t.size k

namespace Fenced

variable {s t : State} {R : ScopeId → Prop}

/-- To begin with, a set of scopes has to be closed. -/
theorem start (hplain : s.PlainCode) (hR : ∀ j k, R j → s.store.Links j k → R k) :
    Fenced s R s where
  plain := hplain
  size_le := Nat.le_refl _
  untouched _ _ _ := rfl
  closed j k hj hlink := by
    rcases hj with hj | ⟨hge, hlt⟩
    · exact .inl (hR j k hj hlink)
    · exact absurd hlt (Nat.not_lt.2 hge)

theorem opened (h : Fenced s R t) {p : ScopeId} (hp : Inside s R t.size p) :
    Fenced s R { t with store := t.store.create (some p) } where
  plain := h.plain
  size_le := by
    rw [State.size, State.size, Store.size_create]
    exact Nat.le_succ_of_le h.size_le
  untouched j hj hR :=
    (Store.scope?_create_of_lt _ (Nat.lt_of_lt_of_le hj h.size_le)).trans (h.untouched j hj hR)
  closed j k hj hlink := by
    have hwider {k : ScopeId} (hk : Inside s R t.size k) : Inside s R (t.size + 1) k :=
      hk.imp_right fun hk => ⟨hk.1, Nat.lt_succ_of_lt hk.2⟩
    rw [State.size, Store.size_create] at hj ⊢
    -- an old scope has the links it had, the new one leads to its parent only
    have hold {scope : Scope} (hscope : t.store.scope? j = some scope)
        (hlink : t.store.Links j k) : Inside s R (t.size + 1) k :=
      hwider (h.closed j k (hj.imp_right fun hj => ⟨hj.1, Store.lt_size hscope⟩) hlink)
    cases hlink with
    | parent hscope hparent =>
      rcases Store.scope?_create_cases hscope with hscope | ⟨-, rfl⟩
      · exact hold hscope (.parent hscope hparent)
      · cases hparent
        exact hwider hp
    | bound hscope hb hk =>
      rcases Store.scope?_create_cases hscope with hscope | ⟨-, rfl⟩
      · exact hold hscope (.bound hscope hb hk)
      · cases hb

theorem bound (h : Fenced s R t) {i : ScopeId} {v : Value} (hi : Inside s R t.size i)
    (hv : ∀ k, v.scope? = some k → Inside s R t.size k) (x : String) :
    Fenced s R { t with store := t.store.define i x v } where
  plain := h.plain
  size_le := by
    rw [State.size, State.size, Store.size_define]
    exact h.size_le
  untouched j hj hR := by
    have hne : i ≠ j := by
      rintro rfl
      exact hi.elim hR fun hi => Nat.not_lt.2 hi.1 hj
    exact (Store.scope?_define_of_ne x v hne).trans (h.untouched j hj hR)
  closed j k hj hlink := by
    rw [State.size, Store.size_define] at hj ⊢
    cases hlink with
    | parent hscope hparent =>
      obtain ⟨old, hold, hsame, -⟩ := Store.scope?_define_cases hscope
      exact h.closed j k hj (.parent hold (hsame ▸ hparent))
    | bound hscope hb hk =>
      obtain ⟨old, hold, -, hbindings⟩ := Store.scope?_define_cases hscope
      rcases hbindings _ hb with hb | ⟨-, rfl⟩
      · exact h.closed j k hj (.bound hold hb hk)
      · exact hv k hk

theorem owner (h : Fenced s R t) {i owner : ScopeId} {x : String} (hi : Inside s R t.size i)
    (howner : t.store.owner? i x = some owner) : Inside s R t.size owner :=
  (Store.owner?_induction (P := Inside s R t.size)
    (fun j _ p hj hscope hp => h.closed j p hj (.parent hscope hp)) hi howner).1

theorem reaches (h : Fenced s R t) {j k : ScopeId} (hj : Inside s R t.size j)
    (hreach : t.store.Reaches j k) : Inside s R t.size k :=
  hreach.induction h.closed hj

/-- The realm of the scopes inside a fence. -/
def realm (s : State) (R : ScopeId → Prop) : Realm where
  law := Fenced s R
  scope := Inside s R
  name _ _ := True
  literal v := v.scope? = none

theorem lawful_realm (s : State) (R : ScopeId → Prop) : (realm s R).Lawful where
  mono hle hi := hi.imp_right fun hi => ⟨hi.1, Nat.lt_of_lt_of_le hi.2 hle⟩
  literal _ hv := Realm.holds_of_scope? hv
  code id h := h.plain.body id
  opened h hp := ⟨h.opened hp, .inr ⟨h.size_le, Nat.lt_succ_self _⟩, fun _ => trivial⟩
  read h hi hget k hk := by
    obtain ⟨owner, scope, howner, hscope, hmem⟩ := Store.get?_eq_some hget
    exact h.closed owner k (h.owner hi howner) (.bound hscope hmem hk)
  defined h hi _ hv := h.bound hi hv _
  assigned h hi howner hv := h.bound (h.owner hi howner) hv _
  numbered h hbody := ⟨h.plain.push hbody, h.size_le, h.untouched, h.closed⟩
  printed _ h := ⟨h.plain, h.size_le, h.untouched, h.closed⟩
  timed _ h := ⟨h.plain, h.size_le, h.untouched, h.closed⟩

end Fenced

/-! ## Evaluation in a scope -/

/-- Scopes that an evaluation from `s` to `t` in scope `i` could reach from
the start or created. -/
def InUse (s : State) (i : ScopeId) (t : State) : ScopeId → Prop :=
  Inside s (s.store.Reaches i) t.size

/-- An evaluation from `s` to `t` in scope `i` that left alone what it could
not reach, and whose scopes lead to no others. -/
structure Confined (s : State) (i : ScopeId) (t : State) : Prop where
  untouched : ∀ j, j < s.size → ¬ s.store.Reaches i j → t.store.scope? j = s.store.scope? j
  closed : ∀ j k, InUse s i t j → t.store.Reaches j k → InUse s i t k

section

variable {s : State} {i : ScopeId} (rounds depth : ℕ)

theorem Fenced.confined {t : State} (h : Fenced s (s.store.Reaches i) t) : Confined s i t :=
  ⟨h.untouched, fun _ _ hj hreach => h.reaches hj hreach⟩

theorem fenced_start (hplain : s.PlainCode) (i : ScopeId) : Fenced s (s.store.Reaches i) s :=
  .start hplain fun _ _ hj hlink => hj.tail hlink

theorem confined_evaluate (hplain : s.PlainCode) {e : Expr} (he : e.Plain) :
    Confined s i (final (evaluate rounds depth e i s)) ∧
      ∀ v t, evaluate rounds depth e i s = .ok v t →
        ∀ k, t.store.Reached v k → InUse s i t k := by
  have hends := (Realm.stays_evaluate_execute (Fenced.lawful_realm s (s.store.Reaches i)) rounds
    depth).1 e he 0 i (.inl .refl) s (fenced_start hplain i) (Nat.zero_le _)
  refine ⟨Fenced.confined hends.final.1, ?_⟩
  rintro v t hrun k ⟨j, hj, hreach⟩
  rw [hrun] at hends
  exact Fenced.reaches hends.final.1 (hends.value j hj) hreach

theorem confined_execute (hplain : s.PlainCode) {st : Stmt} (hst : st.Plain) :
    Confined s i (final (execute rounds depth st i s)) ∧
      ∀ v t, execute rounds depth st i s = .ok (.returned v) t →
        ∀ k, t.store.Reached v k → InUse s i t k := by
  have hends := (Realm.stays_evaluate_execute (Fenced.lawful_realm s (s.store.Reaches i)) rounds
    depth).2 st hst 0 i (.inl .refl) (fun _ _ => trivial) s (fenced_start hplain i) (Nat.zero_le _)
  refine ⟨Fenced.confined hends.final.1, ?_⟩
  rintro v t hrun k ⟨j, hj, hreach⟩
  rw [hrun] at hends
  exact Fenced.reaches hends.final.1 (hends.value j hj) hreach

end

/-! ## Calls -/

/-- Calls a value, as a call does once callee and arguments are evaluated. -/
def callValue (rounds depth : ℕ) (paren : Token) (f : Value) (arguments : List Value) :
    Machine Value :=
  call (fun body inner => executeAll (fun st => execute rounds depth st inner) body) paren f
    arguments

/-- Every call in a lawful realm stays there. -/
theorem Realm.stays_callValue {D : Realm} (hD : D.Lawful) (rounds depth : ℕ) (paren : Token)
    {n : ℕ} {f : Value} (hf : D.Holds n f) {arguments : List Value}
    (harguments : ∀ a ∈ arguments, D.Holds n a) :
    D.Stays n D.Holds (callValue rounds depth paren f arguments) := by
  have hrun := (hD.walk.runs rounds depth).runsCode hD.walk
  have hvalues : List.Forall₂ (D.walk.values n) arguments arguments :=
    List.forall₂_same.2 fun a ha => .refl (harguments a ha)
  have hparen : D.walk.token .paren paren paren := rfl
  exact (hD.walk.call hrun hparen (.refl hf) hvalues).imp fun _ _ => holds_iff.2

/-- Values of scopes that exist, and that reach no scope in common. -/
structure Apart (s : State) (f g : Value) : Prop where
  left : ∀ k, f.scope? = some k → k < s.size
  right : ∀ k, g.scope? = some k → k < s.size
  disjoint : ∀ k, s.store.Reached f k → ¬ s.store.Reached g k

theorem Apart.symm {s : State} {f g : Value} (h : Apart s f g) : Apart s g f :=
  ⟨h.right, h.left, fun k hg hf => h.disjoint k hf hg⟩

/-- All that a value can reach is the same in two states. -/
structure SameFor (g : Value) (s t : State) : Prop where
  reached : ∀ k, t.store.Reached g k ↔ s.store.Reached g k
  scopes : ∀ k, s.store.Reached g k → t.store.scope? k = s.store.scope? k

theorem SameFor.of_scopes {g : Value} {s t : State}
    (h : ∀ k, s.store.Reached g k → t.store.scope? k = s.store.scope? k) : SameFor g s t :=
  ⟨fun _ => exists_congr fun i => and_congr_right fun hi =>
    Store.reaches_iff fun k hk => h k ⟨i, hi, hk⟩, h⟩

/-- The states that calls of two values lead to, in any order and number. No
call is given anything that reaches what the other value does. -/
inductive Calls (f g : Value) (s : State) : State → Prop
  | start : Calls f g s s
  | first {t : State} (rounds depth : ℕ) (paren : Token) {arguments : List Value} :
      Calls f g s t → (∀ a ∈ arguments, Apart t a g) →
      Calls f g s (final (callValue rounds depth paren f arguments t))
  | second {t : State} (rounds depth : ℕ) (paren : Token) {arguments : List Value} :
      Calls f g s t → (∀ a ∈ arguments, Apart t a f) →
      Calls f g s (final (callValue rounds depth paren g arguments t))

/-- Calls of one value that leave the other one alone: the values stay apart,
the other one sees no change, and results can be passed on. -/
def Unaffected (t : State) (f g : Value) : Prop :=
  ∀ rounds depth paren arguments, (∀ a ∈ arguments, Apart t a g) →
    SameFor g t (final (callValue rounds depth paren f arguments t)) ∧
    Apart (final (callValue rounds depth paren f arguments t)) f g ∧
    ∀ v t', callValue rounds depth paren f arguments t = .ok v t' → Apart t' v g

section

variable {s t : State} {f g : Value}

/-- The scopes that lead nowhere the value `g` does. -/
def Elsewhere (s : State) (g : Value) (j : ScopeId) : Prop :=
  j < s.size ∧ ∀ k, s.store.Reaches j k → ¬ s.store.Reached g k

theorem Apart.elsewhere (h : Apart s f g) {j : ScopeId} (hj : f.scope? = some j) :
    Elsewhere s g j :=
  ⟨h.left j hj, fun k hk => h.disjoint k ⟨j, hj, hk⟩⟩

/-- What lies inside the fence of scopes elsewhere is never reached from `g`,
which is left alone. -/
theorem apart_of_fenced (hs : s.Tidy) (hg : ∀ k, g.scope? = some k → k < s.size)
    (h : Fenced s (Elsewhere s g) t) :
    SameFor g s t ∧
      ∀ v, (∀ k, v.scope? = some k → Inside s (Elsewhere s g) t.size k) → Apart t v g := by
  have hlt {k : ScopeId} (hk : s.store.Reached g k) : k < s.size :=
    hk.elim fun j hj => hs.reaches_lt (hg j hj.1) hj.2
  have hsame : SameFor g s t := .of_scopes fun k hk =>
    h.untouched k (hlt hk) fun helse => helse.2 k .refl hk
  refine ⟨hsame, fun v hv => ⟨?_, fun k hk => Nat.lt_of_lt_of_le (hg k hk) h.size_le, ?_⟩⟩
  · intro k hk
    exact (hv k hk).elim (fun h' => Nat.lt_of_lt_of_le h'.1 h.size_le) (·.2)
  · rintro k ⟨j, hj, hreach⟩ hgk
    have hgk : s.store.Reached g k := (hsame.reached k).1 hgk
    rcases h.reaches (hv j hj) hreach with helse | ⟨hge, -⟩
    · exact helse.2 k .refl hgk
    · exact Nat.not_lt.2 hge (hlt hgk)

/-- **A call leaves alone what it cannot reach.** -/
theorem unaffected_of_apart (hs : s.Tidy) (h : Apart s f g) : Unaffected s f g := by
  intro rounds depth paren arguments harguments
  have hinside {v : Value} (hv : Apart s v g) :
      (Fenced.realm s (Elsewhere s g)).Holds s.size v := fun j hj => .inl (hv.elsewhere hj)
  have hstart : Fenced s (Elsewhere s g) s := by
    refine .start hs.plain fun j k hj hlink => ⟨hs.links_lt hlink, fun m hm => ?_⟩
    exact hj.2 m (Relation.ReflTransGen.head hlink hm)
  have hends := Realm.stays_callValue (Fenced.lawful_realm s (Elsewhere s g)) rounds depth paren
    (hinside h) (fun a ha => hinside (harguments a ha)) s hstart (Nat.le_refl _)
  obtain ⟨hsame, hapart⟩ := apart_of_fenced hs h.right hends.final.1
  refine ⟨hsame, hapart f fun j hj => .inl (h.elsewhere hj), fun v t' hrun => ?_⟩
  rw [hrun] at hends
  exact (apart_of_fenced hs h.right hends.final.1).2 v hends.value

theorem State.Tidy.callValue (h : s.Tidy) (rounds depth : ℕ) (paren : Token)
    (hf : ∀ k, f.scope? = some k → k < s.size) {arguments : List Value}
    (harguments : ∀ a ∈ arguments, ∀ k, a.scope? = some k → k < s.size) :
    (final (callValue rounds depth paren f arguments s)).Tidy :=
  (Realm.stays_callValue lawful_realm rounds depth paren hf harguments s h
    (Nat.le_refl _)).final.1

/-- **Values that are apart stay apart through all calls.** -/
theorem Calls.apart (hs : s.Tidy) (h : Apart s f g) (hcalls : Calls f g s t) :
    t.Tidy ∧ Apart t f g := by
  induction hcalls with
  | start => exact ⟨hs, h⟩
  | first rounds depth paren _ harguments ih =>
    obtain ⟨ht, hfg⟩ := ih
    exact ⟨ht.callValue rounds depth paren hfg.left fun a ha => (harguments a ha).left,
      (unaffected_of_apart ht hfg rounds depth paren _ harguments).2.1⟩
  | second rounds depth paren _ harguments ih =>
    obtain ⟨ht, hfg⟩ := ih
    exact ⟨ht.callValue rounds depth paren hfg.right fun a ha => (harguments a ha).left,
      (unaffected_of_apart ht hfg.symm rounds depth paren _ harguments).2.1.symm⟩

end

end Treewalk
