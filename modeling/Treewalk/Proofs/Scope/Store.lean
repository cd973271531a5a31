import Treewalk.Scope.Store
import Mathlib.Data.List.Forall2

/-!
# Scopes and the store

What creating a scope and binding a name do to each scope of the store, and
what a name means then. A chain only ever follows parents, so whatever the
parents of some scopes keep to themselves, the owner of a name is one of
them (`owner?_induction`). Where every parent was created before its
children (`Ordered`), a chain is long enough to reach the outermost scope,
and the owner of a name is found scope by scope (`owner?_eq`).
-/

namespace Treewalk

namespace Scope

/-! ## Bindings -/

theorem map_fst_put (x : String) (v : Value) (bindings : List (String × Value)) :
    (put x v bindings).map (·.1) =
      if x ∈ bindings.map (·.1) then bindings.map (·.1) else bindings.map (·.1) ++ [x] := by
  induction bindings with
  | nil => rfl
  | cons b rest ih =>
    obtain ⟨y, w⟩ := b
    rw [put]
    by_cases hy : y = x
    · simp [hy]
    · have hne : x ≠ y := fun h => hy h.symm
      simp only [beq_iff_eq, hy, if_false, List.map_cons, ih, List.mem_cons, hne, false_or]
      split <;> rfl

theorem mem_put {x : String} {v : Value} {bindings : List (String × Value)} {b : String × Value}
    (h : b ∈ put x v bindings) : b ∈ bindings ∨ b = (x, v) := by
  induction bindings with
  | nil => exact .inr (List.mem_singleton.1 h)
  | cons c rest ih =>
    obtain ⟨y, w⟩ := c
    rw [put] at h
    split at h
    · rename_i hy
      rcases List.mem_cons.1 h with h | h
      · exact .inr (by rw [h, eq_of_beq hy])
      · exact .inl (List.mem_cons_of_mem _ h)
    · rcases List.mem_cons.1 h with h | h
      · exact .inl (List.mem_cons.2 (.inl h))
      · exact (ih h).imp_left (List.mem_cons_of_mem _)

/-- A scope binds the names of its bindings. -/
theorem binds_iff {s : Scope} {x : String} : s.binds x = true ↔ x ∈ s.bindings.map (·.1) := by
  obtain ⟨bindings, parent⟩ := s
  simp only [binds, find?]
  induction bindings with
  | nil => simp
  | cons b rest ih =>
    rw [List.lookup_cons, List.map_cons, List.mem_cons]
    by_cases hx : x = b.1
    · simp [hx]
    · have hbeq : (x == b.1) = false := beq_false_of_ne hx
      simp only [hbeq, ih, hx, false_or]

theorem mem_of_find? {s : Scope} {x : String} {v : Value} (h : s.find? x = some v) :
    (x, v) ∈ s.bindings := by
  obtain ⟨bindings, parent⟩ := s
  simp only [find?] at h
  induction bindings with
  | nil => cases h
  | cons b rest ih =>
    rw [List.lookup_cons] at h
    split at h
    · rename_i hx
      obtain rfl := Option.some.inj h
      rw [eq_of_beq hx]
      exact List.mem_cons_self
    · exact List.mem_cons_of_mem _ (ih h)

@[simp] theorem bindings_define (s : Scope) (x : String) (v : Value) :
    (s.define x v).bindings = put x v s.bindings := rfl

/-- Binding pairs of values under the same names. -/
theorem forall₂_put {P : Value → Value → Prop} {bs bs' : List (String × Value)} {v v' : Value}
    (x : String) (hv : P v v')
    (h : List.Forall₂ (fun b b' => b.1 = b'.1 ∧ P b.2 b'.2) bs bs') :
    List.Forall₂ (fun b b' => b.1 = b'.1 ∧ P b.2 b'.2) (put x v bs) (put x v' bs') := by
  induction h with
  | nil => exact .cons ⟨rfl, hv⟩ .nil
  | @cons b b' rest rest' hb hrest ih =>
    obtain ⟨y, w⟩ := b
    obtain ⟨y', w'⟩ := b'
    obtain ⟨rfl, hw⟩ := hb
    rw [put, put]
    split
    · exact .cons ⟨rfl, hv⟩ hrest
    · exact .cons ⟨rfl, hw⟩ ih

/-- Looking a name up in pairs of values under the same names. -/
theorem rel_lookup {P : Value → Value → Prop} {bs bs' : List (String × Value)} (x : String)
    (h : List.Forall₂ (fun b b' => b.1 = b'.1 ∧ P b.2 b'.2) bs bs') :
    Option.Rel P (bs.lookup x) (bs'.lookup x) := by
  induction h with
  | nil => exact .none
  | @cons b b' rest rest' hb hrest ih =>
    rw [List.lookup_cons, List.lookup_cons, hb.1]
    split
    · exact .some hb.2
    · exact ih

end Scope

namespace Store

variable {s : Store} {i j : ScopeId} {x : String} {v : Value}

/-! ## What a step does to each scope -/

theorem scope?_isSome : (s.scope? i).isSome = true ↔ i < s.scopes.size := by
  simp [scope?]

theorem lt_size {scope : Scope} (h : s.scope? i = some scope) : i < s.scopes.size :=
  scope?_isSome.1 (by rw [h]; rfl)

theorem exists_scope (h : i < s.scopes.size) : ∃ scope, s.scope? i = some scope :=
  Option.isSome_iff_exists.1 (scope?_isSome.2 h)

@[simp] theorem size_create (s : Store) (parent : Option ScopeId) :
    (s.create parent).scopes.size = s.scopes.size + 1 := by
  simp [create]

@[simp] theorem size_define (s : Store) (i : ScopeId) (x : String) (v : Value) :
    (s.define i x v).scopes.size = s.scopes.size := by
  simp [define]

theorem scope?_create (s : Store) (parent : Option ScopeId) (j : ScopeId) :
    (s.create parent).scope? j = if j = s.scopes.size then some { parent := parent }
      else s.scope? j := by
  simp only [scope?, create, Array.getElem?_push]

theorem scope?_create_of_lt (parent : Option ScopeId) (h : j < s.scopes.size) :
    (s.create parent).scope? j = s.scope? j := by
  rw [scope?_create, if_neg (Nat.ne_of_lt h)]

@[simp] theorem scope?_create_size (s : Store) (parent : Option ScopeId) :
    (s.create parent).scope? s.scopes.size = some { parent := parent } := by
  rw [scope?_create, if_pos rfl]

theorem scope?_define (s : Store) (i : ScopeId) (x : String) (v : Value) (j : ScopeId) :
    (s.define i x v).scope? j =
      if i = j then (s.scope? j).map (·.define x v) else s.scope? j := by
  simp only [scope?, define, Array.getElem?_modify]

theorem scope?_define_of_ne (x : String) (v : Value) (h : i ≠ j) :
    (s.define i x v).scope? j = s.scope? j := by
  rw [scope?_define, if_neg h]

theorem scope?_define_self {scope : Scope} (x : String) (v : Value)
    (h : s.scope? i = some scope) : (s.define i x v).scope? i = some (scope.define x v) := by
  rw [scope?_define, if_pos rfl, h]
  rfl

/-- A scope of the store before, or the new one. -/
theorem scope?_create_cases {parent : Option ScopeId} {scope : Scope}
    (h : (s.create parent).scope? j = some scope) :
    s.scope? j = some scope ∨ j = s.scopes.size ∧ scope = { parent := parent } := by
  rw [scope?_create] at h
  split at h
  · rename_i hj
    exact .inr ⟨hj, (Option.some.inj h).symm⟩
  · exact .inl h

/-- A scope after a binding has the parent it had, and its bindings are old
ones but for the new one. -/
theorem scope?_define_cases {scope' : Scope} (h : (s.define i x v).scope? j = some scope') :
    ∃ scope, s.scope? j = some scope ∧ scope'.parent = scope.parent ∧
      ∀ b ∈ scope'.bindings, b ∈ scope.bindings ∨ i = j ∧ b = (x, v) := by
  rw [scope?_define] at h
  split at h
  · rename_i hj
    obtain ⟨scope, hscope, rfl⟩ := Option.map_eq_some_iff.1 h
    exact ⟨scope, hscope, rfl, fun b hb => (Scope.mem_put hb).imp_right fun hb => ⟨hj, hb⟩⟩
  · exact ⟨scope', h, rfl, fun b hb => .inl hb⟩

/-! ## Chains -/

/-- What parents pass on holds of every scope of a chain, and every scope of
a chain exists. -/
theorem chainWithin_induction {P : ScopeId → Prop}
    (hparent : ∀ i scope p, P i → s.scope? i = some scope → scope.parent = some p → P p)
    (room : ℕ) {i j : ScopeId} (hi : P i) (hj : j ∈ s.chainWithin room i) :
    P j ∧ j < s.scopes.size := by
  induction room generalizing i with
  | zero => cases hj
  | succ room ih =>
    rw [chainWithin] at hj
    split at hj
    · cases hj
    · rename_i scope hscope
      split at hj
      · obtain rfl := List.mem_singleton.1 hj
        exact ⟨hi, lt_size hscope⟩
      · rename_i p hp
        rcases List.mem_cons.1 hj with rfl | hj
        · exact ⟨hi, lt_size hscope⟩
        · exact ih (hparent i scope p hi hscope hp) hj

/-- What parents pass on holds of the owner of a name, which exists. -/
theorem owner?_induction {P : ScopeId → Prop}
    (hparent : ∀ i scope p, P i → s.scope? i = some scope → scope.parent = some p → P p)
    {owner : ScopeId} (hi : P i) (h : s.owner? i x = some owner) :
    P owner ∧ owner < s.scopes.size :=
  chainWithin_induction hparent (i + 1) hi (List.mem_of_find?_eq_some h)

theorem bindsAt_of_owner? {owner : ScopeId} (h : s.owner? i x = some owner) :
    s.bindsAt x owner = true :=
  List.find?_some h

theorem get?_eq_some (h : s.get? i x = some v) : ∃ owner scope, s.owner? i x = some owner ∧
    s.scope? owner = some scope ∧ (x, v) ∈ scope.bindings := by
  obtain ⟨owner, howner, h⟩ := Option.bind_eq_some_iff.1 h
  obtain ⟨scope, hscope, hfind⟩ := Option.bind_eq_some_iff.1 h
  exact ⟨owner, scope, howner, hscope, Scope.mem_of_find? hfind⟩

/-- A name has a value exactly if it has an owner. -/
theorem isSome_get? : (s.get? i x).isSome = (s.owner? i x).isSome := by
  unfold get?
  cases h : s.owner? i x with
  | none => rfl
  | some owner =>
    have hbinds := bindsAt_of_owner? h
    unfold bindsAt at hbinds
    cases hscope : s.scope? owner with
    | none =>
      rw [hscope] at hbinds
      cases hbinds
    | some scope =>
      rw [hscope] at hbinds
      simpa [hscope, Scope.binds] using hbinds

/-! ## Parents that come first -/

/-- Every parent was created before its children. -/
def Ordered (s : Store) : Prop :=
  ∀ i scope p, s.scope? i = some scope → scope.parent = some p → p < i

theorem Ordered.create (h : s.Ordered) {parent : ScopeId} (hparent : parent < s.scopes.size) :
    (s.create (some parent)).Ordered := by
  intro i scope p hscope hp
  rcases scope?_create_cases hscope with hscope | ⟨rfl, rfl⟩
  · exact h i scope p hscope hp
  · cases hp
    exact hparent

theorem Ordered.define (h : s.Ordered) (i : ScopeId) (x : String) (v : Value) :
    (s.define i x v).Ordered := by
  intro j scope' p hscope hp
  obtain ⟨scope, hold, hparent, -⟩ := scope?_define_cases hscope
  exact h j scope p hold (hparent ▸ hp)

/-- With parents first, a chain has room enough as soon as it has room for
one scope more than the number of its first. -/
theorem Ordered.chainWithin_eq (h : s.Ordered) {room : ℕ} (hroom : i < room) :
    s.chainWithin room i = s.chain i := by
  induction i using Nat.strongRecOn generalizing room with
  | ind i ih =>
    obtain ⟨room, rfl⟩ := Nat.exists_eq_succ_of_ne_zero (Nat.ne_zero_of_lt hroom)
    rw [chain, chainWithin, chainWithin]
    cases hscope : s.scope? i with
    | none => rfl
    | some scope =>
      cases hp : scope.parent with
      | none => simp only [hp]
      | some p =>
        have hlt := h i scope p hscope hp
        simp only [hp]
        rw [ih p hlt (Nat.lt_of_lt_of_le hlt (Nat.le_of_lt_succ hroom)), ih p hlt hlt]

/-- **The owner of a name is found scope by scope.** -/
theorem Ordered.owner?_eq (h : s.Ordered) {scope : Scope} (hscope : s.scope? i = some scope)
    (x : String) :
    s.owner? i x = if scope.binds x then some i else scope.parent.bind (s.owner? · x) := by
  have hbinds : s.bindsAt x i = scope.binds x := by
    simp only [bindsAt, hscope, Option.map_some, Option.getD_some]
  rw [owner?, chain, chainWithin, hscope]
  cases hp : scope.parent with
  | none =>
    simp only [hp, List.find?_cons, hbinds, List.find?_nil, Option.bind_none]
    cases scope.binds x <;> rfl
  | some p =>
    have hlt := h i scope p hscope hp
    simp only [hp, List.find?_cons, hbinds, Option.bind_some, h.chainWithin_eq hlt]
    cases scope.binds x <;> rfl

end Store

end Treewalk
