import Treewalk.Proofs.Evaluation.Realm

/-!
# Tidy states

In a tidy state nothing dangles: every scope was created after its parent,
every function that is bound somewhere was declared in a scope that exists,
and no code holds a function as a literal. Evaluation keeps a state tidy,
however it ends, and yields no function but of a scope that exists.
-/

namespace Treewalk

open Machine

/-- No literal in the code of a function is a declared function. -/
def State.PlainCode (s : State) : Prop :=
  ∀ body ∈ s.code.toList, ∀ v ∈ Stmt.literalsAll body, v.scope? = none

theorem State.PlainCode.body {s : State} (h : s.PlainCode) (id : ℕ) :
    ∀ v ∈ Stmt.literalsAll (s.body id), v.scope? = none := by
  unfold State.body
  cases hbody : s.code[id]? with
  | none => exact nofun
  | some body => exact h body (Array.mem_toList_iff.2 (Array.mem_of_getElem? hbody))

theorem State.PlainCode.push {s : State} (h : s.PlainCode) {body : List Stmt}
    (hbody : ∀ v ∈ Stmt.literalsAll body, v.scope? = none) :
    State.PlainCode { s with code := s.code.push body } := by
  intro other hother
  rw [Array.toList_push] at hother
  rcases List.mem_append.1 hother with hother | hother
  · exact h other hother
  · rw [List.mem_singleton.1 hother]
    exact hbody

/-- A state in which nothing dangles. -/
structure State.Tidy (s : State) : Prop where
  ordered : s.store.Ordered
  /-- Functions that are bound somewhere keep a scope that exists. -/
  values : ∀ i scope, s.store.scope? i = some scope → ∀ b ∈ scope.bindings, ∀ k,
    b.2.scope? = some k → k < s.size
  plain : s.PlainCode

theorem State.tidy_initial (reading : ℕ → Float) : (State.initial reading).Tidy where
  ordered := by
    refine Store.Ordered.define ?_ _ _ _
    intro i scope p hscope hp
    rcases Store.scope?_create_cases hscope with hscope | ⟨-, rfl⟩
    · cases hscope
    · cases hp
  values i scope hscope b hb k hk := by
    obtain ⟨old, hold, -, hbindings⟩ := Store.scope?_define_cases hscope
    rcases hbindings b hb with hb | ⟨-, rfl⟩
    · rcases Store.scope?_create_cases hold with hold | ⟨-, rfl⟩
      · cases hold
      · cases hb
    · cases hk
  plain body hbody v hv := by
    obtain rfl := List.mem_singleton.1 hbody
    cases hv

namespace State.Tidy

variable {s : State}

/-- Parents exist. -/
theorem parent_lt (h : s.Tidy) {i p : ScopeId} {scope : Scope}
    (hscope : s.store.scope? i = some scope) (hp : scope.parent = some p) : p < s.size :=
  Nat.lt_trans (h.ordered i scope p hscope hp) (Store.lt_size hscope)

theorem opened (h : s.Tidy) {p : ScopeId} (hp : p < s.size) :
    State.Tidy { s with store := s.store.create (some p) } where
  ordered := h.ordered.create hp
  values i scope hscope b hb k hk := by
    rcases Store.scope?_create_cases hscope with hscope | ⟨-, rfl⟩
    · rw [State.size, Store.size_create]
      exact Nat.lt_succ_of_lt (h.values i scope hscope b hb k hk)
    · cases hb
  plain := h.plain

theorem bound (h : s.Tidy) {v : Value} (hv : ∀ k, v.scope? = some k → k < s.size) (i : ScopeId)
    (x : String) : State.Tidy { s with store := s.store.define i x v } where
  ordered := h.ordered.define i x v
  values j scope hscope b hb k hk := by
    rw [State.size, Store.size_define]
    obtain ⟨old, hold, -, hbindings⟩ := Store.scope?_define_cases hscope
    rcases hbindings b hb with hb | ⟨-, rfl⟩
    · exact h.values j old hold b hb k hk
    · exact hv k hk
  plain := h.plain

/-- A variable of a tidy state keeps no scope but one that exists. -/
theorem value_lt (h : s.Tidy) {i k : ScopeId} {x : String} {v : Value}
    (hget : s.store.get? i x = some v) (hk : v.scope? = some k) : k < s.size := by
  obtain ⟨owner, scope, -, hscope, hmem⟩ := Store.get?_eq_some hget
  exact h.values owner scope hscope _ hmem k hk

/-- The realm of scopes that exist. -/
def realm : Realm where
  law := State.Tidy
  scope n i := i < n
  name _ _ := True
  literal v := v.scope? = none

theorem lawful_realm : realm.Lawful where
  mono hle hi := Nat.lt_of_lt_of_le hi hle
  literal _ hv := Realm.holds_of_scope? hv
  code id h := h.plain.body id
  opened h hp := ⟨h.opened hp, Nat.lt_succ_self _, fun _ => trivial⟩
  read h _ hget _ := h.value_lt hget
  defined h _ _ hv := h.bound hv _ _
  assigned h _ _ hv := h.bound hv _ _
  numbered h hbody := ⟨h.ordered, h.values, h.plain.push hbody⟩
  printed _ h := ⟨h.ordered, h.values, h.plain⟩
  timed _ h := ⟨h.ordered, h.values, h.plain⟩

/-- Evaluation keeps a state tidy. -/
theorem evaluate (h : s.Tidy) (rounds depth : ℕ) {e : Expr} (he : e.Plain) {i : ScopeId}
    (hi : i < s.size) : (final (evaluate rounds depth e i s)).Tidy :=
  ((Realm.stays_evaluate_execute lawful_realm rounds depth).1 e he s.size i hi s h
    (Nat.le_refl _)).final.1

/-- **Execution keeps a state tidy**, and loses no scope. -/
theorem execute (h : s.Tidy) (rounds depth : ℕ) {st : Stmt} (hst : st.Plain) {i : ScopeId}
    (hi : i < s.size) : (final (execute rounds depth st i s)).Tidy ∧
      s.size ≤ (final (execute rounds depth st i s)).size :=
  ((Realm.stays_evaluate_execute lawful_realm rounds depth).2 st hst s.size i hi
    (fun _ _ => trivial) s h (Nat.le_refl _)).final

theorem runProgram (h : s.Tidy) (limits : Limits) {program : List Stmt}
    (hprogram : ∀ st ∈ program, st.Plain) (hglobal : globalScope < s.size) :
    (final (runProgram limits program s)).Tidy ∧
      s.size ≤ (final (runProgram limits program s)).size :=
  (Realm.stays_runProgram lawful_realm limits program hglobal
    (fun st hst => ⟨hprogram st hst, fun _ _ => trivial⟩) s h (Nat.le_refl _)).final

end State.Tidy

end Treewalk
