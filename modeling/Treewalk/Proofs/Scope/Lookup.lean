import Treewalk.Proofs.Scope.Chains

/-!
# Lookup and assignment in a forest of scopes

Scopes share their parents, so one binding is seen from many scopes. A scope
is visible for a name if no scope in front of it, on the way outward, binds
the name; the binder of a name is the visible scope that binds it. Binding a
name in a scope changes what the name means exactly where that scope is
visible for it, and assigning to a variable changes it exactly where the
variable has the same binder. Nothing else is affected: not other names, not
the scopes that shadow the binding, not the trees of scopes beside it.
-/

namespace Treewalk

namespace Scope

/-- What a name is bound to after a binding. -/
theorem find?_define (s : Scope) (x y : String) (v : Value) :
    (s.define x v).find? y = if y = x then some v else s.find? y := by
  obtain ⟨bindings, parent⟩ := s
  simp only [find?, bindings_define]
  induction bindings with
  | nil =>
    rw [put, List.lookup_cons, List.lookup_nil]
    by_cases hy : y = x
    · simp [hy]
    · simp [hy, beq_false_of_ne hy]
  | cons b rest ih =>
    obtain ⟨z, w⟩ := b
    rw [put]
    by_cases hz : z = x
    · by_cases hy : y = x
      · simp [hz, hy]
      · have hbeq : (y == x) = false := beq_false_of_ne hy
        simp [hz, hy, hbeq, List.lookup_cons]
    · have hbeq : (z == x) = false := beq_false_of_ne hz
      simp only [hbeq, Bool.false_eq_true, if_false, List.lookup_cons, ih]
      cases hyz : y == z with
      | false => rfl
      | true =>
        -- the first name is another one
        have hne : y ≠ x := fun hy => hz (by rw [← hy, eq_of_beq hyz])
        simp [hne]

theorem binds_define (s : Scope) (x y : String) (v : Value) :
    (s.define x v).binds y = (decide (y = x) || s.binds y) := by
  unfold binds
  rw [find?_define]
  by_cases hy : y = x <;> simp [hy]

/-- The names that a scope binds, in order, and its parent. -/
def outline (s : Scope) : List String × Option ScopeId := (s.bindings.map (·.1), s.parent)

end Scope

namespace Store

variable {s : Store} {e f b : ScopeId} {x y : String} {v : Value}

/-! ## Forests of scopes -/

/-- The stores that come up: from one without scopes, by creating scopes, on
their own or in others, binding names and assigning to variables. Reading a
variable changes nothing, nor does an assignment that fails. -/
inductive Built : Store → Prop
  | empty : Built {}
  | create {s : Store} (parent : Option ScopeId) : Built s →
      (∀ p, parent = some p → p < s.scopes.size) → Built (s.create parent)
  | define {s : Store} (i : ScopeId) (x : String) (v : Value) : Built s →
      i < s.scopes.size → Built (s.define i x v)
  | assign {s s' : Store} (i : ScopeId) (name : Token) (v : Value) : Built s →
      s.write i name v = .ok s' → Built s'

/-- An assignment that succeeds binds the name in the scope that owns it. -/
theorem write_eq_ok {s' : Store} {name : Token} : s.write e name v = .ok s' ↔
    ∃ owner, s.owner? e name.lexeme = some owner ∧ s' = s.define owner name.lexeme v := by
  unfold write ownerOf
  cases s.owner? e name.lexeme with
  | none => simp [Except.map]
  | some owner => simp [Except.map, eq_comm]

theorem Built.ordered (h : s.Built) : s.Ordered := by
  induction h with
  | empty =>
    intro i scope p hscope
    simp [scope?] at hscope
  | create parent _ hparent ih =>
    intro i scope p hscope hp
    rcases scope?_create_cases hscope with hscope | ⟨rfl, rfl⟩
    · exact ih i scope p hscope hp
    · exact hparent p hp
  | define i x v _ _ ih => exact ih.define i x v
  | assign i name v _ hwrite ih =>
    obtain ⟨owner, -, rfl⟩ := write_eq_ok.1 hwrite
    exact ih.define owner name.lexeme v

/-! ## Ways outward -/

/-- Where parents come first, every way outward comes to an end. -/
theorem Ordered.exists_outward (h : s.Ordered) (hf : f < s.scopes.size) :
    ∃ path, s.Outward f path := by
  induction f using Nat.strongRecOn with
  | ind f ih =>
    obtain ⟨scope, hscope⟩ := exists_scope hf
    cases hp : scope.parent with
    | none => exact ⟨[f], .last hscope hp⟩
    | some p =>
      have hlt := h f scope p hscope hp
      obtain ⟨path, hpath⟩ := ih p hlt (Nat.lt_trans hlt hf)
      exact ⟨f :: path, .step hscope hp hpath⟩

/-! ## Visible scopes -/

/-- Scope `e` is on the way outward from scope `f`, and no scope in front of
it binds the name. -/
def Visible (s : Store) (x : String) (f e : ScopeId) : Prop :=
  ∃ nearer rest, s.Outward f (nearer ++ e :: rest) ∧ ∀ j ∈ nearer, s.bindsAt x j = false

/-- Scope `b` is the nearest scope seen from scope `f` that binds the name. -/
def Binder (s : Store) (x : String) (f b : ScopeId) : Prop :=
  s.Visible x f b ∧ s.bindsAt x b = true

theorem bindsAt_eq {scope : Scope} (hscope : s.scope? f = some scope) (x : String) :
    s.bindsAt x f = scope.binds x := by
  simp only [bindsAt, hscope, Option.map_some, Option.getD_some]

/-- A way outward starts with the scope itself, which exists. -/
theorem Outward.exists_cons {path : List ScopeId} (h : s.Outward f path) :
    (∃ scope, s.scope? f = some scope) ∧ ∃ rest, path = f :: rest := by
  cases h with
  | last hscope _ | step hscope _ _ => exact ⟨⟨_, hscope⟩, _, rfl⟩

theorem not_visible_of_scope? (hscope : s.scope? f = none) : ¬ s.Visible x f e := by
  rintro ⟨nearer, rest, hpath, -⟩
  obtain ⟨⟨scope, hsome⟩, -⟩ := hpath.exists_cons
  rw [hscope] at hsome
  cases hsome

/-- **What is visible is found scope by scope**: the scope itself, and what is
visible from its parent unless it binds the name. -/
theorem Ordered.visible_iff (h : s.Ordered) {scope : Scope} (hscope : s.scope? f = some scope) :
    s.Visible x f e ↔
      e = f ∨ scope.binds x = false ∧ ∃ p, scope.parent = some p ∧ s.Visible x p e := by
  constructor
  · rintro ⟨nearer, rest, hpath, hnearer⟩
    cases nearer with
    | nil => exact .inl (Option.some.inj hpath.head?)
    | cons j nearer =>
      obtain ⟨hj, hnearer⟩ := List.forall_mem_cons.1 hnearer
      obtain rfl : j = f := Option.some.inj hpath.head?
      rw [bindsAt_eq hscope] at hj
      generalize hall : j :: nearer ++ e :: rest = path at hpath
      cases hpath with
      | last => simp at hall
      | step hscope' hp hpath =>
        cases hscope.symm.trans hscope'
        obtain ⟨-, rfl⟩ := List.cons.inj hall
        exact .inr ⟨hj, _, hp, nearer, rest, hpath, hnearer⟩
  · rintro (rfl | ⟨hbinds, p, hp, nearer, rest, hpath, hnearer⟩)
    · obtain ⟨path, hpath⟩ := h.exists_outward (lt_size hscope)
      obtain ⟨-, rest, rfl⟩ := hpath.exists_cons
      exact ⟨[], rest, hpath, List.forall_mem_nil _⟩
    · refine ⟨f :: nearer, rest, .step hscope hp hpath, List.forall_mem_cons.2 ⟨?_, hnearer⟩⟩
      rwa [bindsAt_eq hscope]

theorem owner?_of_scope? (hscope : s.scope? f = none) (x : String) : s.owner? f x = none := by
  simp [owner?, chain, chainWithin, hscope]

/-- **The owner of a name is its binder.** -/
theorem Ordered.owner?_eq_some (h : s.Ordered) :
    s.owner? f x = some b ↔ s.Binder x f b := by
  induction f using Nat.strongRecOn with
  | ind f ih =>
    cases hscope : s.scope? f with
    | none =>
      rw [owner?_of_scope? hscope]
      exact ⟨nofun, fun hbinder => absurd hbinder.1 (not_visible_of_scope? hscope)⟩
    | some scope =>
      have hself := bindsAt_eq hscope x
      rw [h.owner?_eq hscope, Binder, h.visible_iff hscope]
      cases hbinds : scope.binds x with
      | true => grind
      | false =>
        cases hp : scope.parent with
        | none => grind
        | some p =>
          -- what the parent sees is what this scope sees beyond itself
          have hparent := ih p (h f scope p hscope hp)
          rw [Binder] at hparent
          grind

theorem Binder.unique (h : s.Ordered) {b' : ScopeId} (hb : s.Binder x f b)
    (hb' : s.Binder x f b') : b' = b :=
  Option.some.inj ((h.owner?_eq_some.2 hb').symm.trans (h.owner?_eq_some.2 hb))

/-- A name has an owner if some scope on the way outward binds it. -/
theorem exists_binder_iff :
    (∃ b, s.Binder x f b) ↔ ∃ path, s.Outward f path ∧ ∃ j ∈ path, s.bindsAt x j = true := by
  constructor
  · rintro ⟨b, ⟨nearer, rest, hpath, -⟩, hbinds⟩
    exact ⟨_, hpath, b, by simp, hbinds⟩
  · rintro ⟨path, hpath, hj⟩
    -- the first scope of the path that binds the name
    obtain ⟨b, hfind⟩ := Option.isSome_iff_exists.1 (List.find?_isSome.2 hj)
    obtain ⟨hbinds, nearer, rest, rfl, hnearer⟩ := List.find?_eq_some_iff_append.1 hfind
    exact ⟨b, ⟨nearer, rest, hpath, fun j hj => by simpa using hnearer j hj⟩, hbinds⟩

/-! ## Reading -/

/-- **Reading gives the value in the binder.** -/
theorem Ordered.get?_eq_some (h : s.Ordered) : s.get? f x = some v ↔
    ∃ b scope, s.Binder x f b ∧ s.scope? b = some scope ∧ scope.find? x = some v := by
  simp only [get?, Option.bind_eq_bind, Option.bind_eq_some_iff, h.owner?_eq_some]
  grind

theorem read_eq_ok {name : Token} : s.read f name = .ok v ↔ s.get? f name.lexeme = some v := by
  unfold read
  cases s.get? f name.lexeme <;> simp

theorem read_congr {s' : Store} {name : Token} (h : s'.get? f name.lexeme = s.get? f name.lexeme) :
    s'.read f name = s.read f name := by
  rw [read, read, h]

/-! ## Binding a name -/

open scoped Classical in
/-- **A binding takes a name over where its scope is visible**, and nowhere
else. -/
theorem Ordered.owner?_define (h : s.Ordered) (e : ScopeId) (x : String) (v : Value)
    (f : ScopeId) (y : String) : (s.define e x v).owner? f y =
      if y = x ∧ s.Visible x f e then some e else s.owner? f y := by
  induction f using Nat.strongRecOn with
  | ind f ih =>
    cases hscope : s.scope? f with
    | none =>
      have hnone : (s.define e x v).scope? f = none := by simp [scope?_define, hscope]
      rw [owner?_of_scope? hnone, owner?_of_scope? hscope, if_neg]
      exact fun hvisible => not_visible_of_scope? hscope hvisible.2
    | some scope =>
      rw [h.owner?_eq hscope, h.visible_iff hscope]
      -- the parent was settled before
      have hparent : ∀ p, scope.parent = some p → (s.define e x v).owner? p y =
          if y = x ∧ s.Visible x p e then some e else s.owner? p y :=
        fun p hp => ih p (h f scope p hscope hp)
      by_cases hf : e = f
      · subst hf
        rw [(h.define e x v).owner?_eq (scope?_define_self x v hscope), Scope.binds_define]
        cases hp : scope.parent <;> grind [Scope.define]
      · rw [(h.define e x v).owner?_eq ((scope?_define_of_ne x v hf).trans hscope)]
        cases hp : scope.parent <;> grind

open scoped Classical in
/-- **What names mean after a binding.** -/
theorem Ordered.get?_define (h : s.Ordered) (e : ScopeId) (x : String) (v : Value)
    (f : ScopeId) (y : String) : (s.define e x v).get? f y =
      if y = x ∧ s.Visible x f e then some v else s.get? f y := by
  have howner := h.owner?_define e x v f y
  split at howner
  case isTrue hvisible =>
    obtain ⟨rfl, hvisible⟩ := hvisible
    obtain ⟨-, he⟩ := owner?_induction (P := fun _ => True) (fun _ _ _ _ _ _ => trivial) trivial
      howner
    rw [size_define] at he
    obtain ⟨scope, hscope⟩ := exists_scope he
    simp [get?, howner, scope?_define_self y v hscope, Scope.find?_define, hvisible]
  case isFalse hvisible =>
    rw [if_neg hvisible, get?, get?, howner]
    cases hold : s.owner? f y with
    | none => rfl
    | some owner =>
      simp only [Option.bind_eq_bind, Option.bind_some]
      by_cases hne : e = owner
      · -- the binder itself got a new binding, but for another name
        subst hne
        have hy : y ≠ x := by
          rintro rfl
          exact hvisible ⟨rfl, (h.owner?_eq_some.1 hold).1⟩
        rw [scope?_define, if_pos rfl]
        cases s.scope? e with
        | none => rfl
        | some scope => simp [Scope.find?_define, hy]
      · rw [scope?_define_of_ne x v hne]

/-! ## Assigning to a variable -/

/-- An assignment succeeds if the name has a binder. -/
theorem Ordered.exists_write_iff (h : s.Ordered) {name : Token} :
    (∃ s', s.write e name v = .ok s') ↔ ∃ b, s.Binder name.lexeme e b := by
  simp only [write_eq_ok, h.owner?_eq_some]
  constructor
  · rintro ⟨_, b, hb, -⟩
    exact ⟨b, hb⟩
  · rintro ⟨b, hb⟩
    exact ⟨_, b, hb, rfl⟩

open scoped Classical in
/-- **What names mean after an assignment.** It is seen from the scopes in
which the variable has the same binder. -/
theorem Ordered.get?_of_write (h : s.Ordered) {s' : Store} {name : Token}
    (hwrite : s.write e name v = .ok s') (f : ScopeId) (y : String) :
    s'.get? f y =
      if y = name.lexeme ∧ ∃ b, s.Binder name.lexeme f b ∧ s.Binder name.lexeme e b then some v
      else s.get? f y := by
  obtain ⟨owner, howner, rfl⟩ := write_eq_ok.1 hwrite
  have hbinder := h.owner?_eq_some.1 howner
  -- the owner binds the name, so where it is visible it is the binder
  have hshared : s.Visible name.lexeme f owner ↔
      ∃ b, s.Binder name.lexeme f b ∧ s.Binder name.lexeme e b := by
    constructor
    · exact fun hvisible => ⟨owner, ⟨hvisible, hbinder.2⟩, hbinder⟩
    · rintro ⟨b, hf, he⟩
      exact hbinder.unique h he ▸ hf.1
  rw [h.get?_define, hshared]

/-- An assignment leaves all scopes with the names and the parents they have. -/
theorem outline_of_write {s' : Store} {name : Token} (hwrite : s.write e name v = .ok s')
    (j : ScopeId) : (s'.scope? j).map Scope.outline = (s.scope? j).map Scope.outline := by
  obtain ⟨owner, howner, rfl⟩ := write_eq_ok.1 hwrite
  have hbinds := bindsAt_of_owner? howner
  rw [scope?_define]
  split
  · rename_i hj
    subst hj
    cases hscope : s.scope? owner with
    | none => rfl
    | some scope =>
      rw [bindsAt_eq hscope, Scope.binds_iff] at hbinds
      simp [Scope.outline, Scope.define, Scope.map_fst_put, hbinds]
  · rfl

end Store

/-! ## Failing -/

/-- The error that the variable a token names is not bound. -/
structure RuntimeError.Unbound (name : Token) (e : RuntimeError) : Prop where
  message : e.message = "Undefined variable '" ++ name.lexeme ++ "'."
  line : e.line = name.line

namespace Store

variable {s : Store} {i : ScopeId} {name : Token} {err : RuntimeError}

theorem unbound_of_read (h : s.read i name = .error err) : err.Unbound name := by
  unfold read at h
  split at h <;> cases h
  exact ⟨rfl, rfl⟩

theorem unbound_of_write {v : Value} (h : s.write i name v = .error err) : err.Unbound name := by
  unfold write ownerOf at h
  split at h <;> cases h
  exact ⟨rfl, rfl⟩

end Store

namespace Machine

/-- The machine reads from its store, and changes nothing. -/
theorem read_eq (m : State) (i : ScopeId) (name : Token) : read i name m =
    match m.store.read i name with
    | .ok v => .ok v m
    | .error err => .error (.error err) m := rfl

/-- The machine assigns in its store, and changes nothing if that fails. -/
theorem assign_eq (m : State) (i : ScopeId) (name : Token) (v : Value) : assign i name v m =
    match m.store.write i name v with
    | .ok store => .ok () { m with store := store }
    | .error err => .error (.error err) m := by
  unfold assign Store.write
  cases m.store.ownerOf i name <;> rfl

end Machine

/-- **Lookup and assignment in any forest of scopes.** In a store that was
built up by creating scopes, binding names and assigning to variables:
- A variable has the value it is bound to in its binder, the nearest scope on
  the way outward that binds the name.
- After a name was bound in a scope it has the new value wherever that scope
  is on the way outward with no scope in front that binds the name. All else
  reads as before, value or error.
- An assignment succeeds exactly if some scope on the way outward binds the
  name. The new value is read wherever the variable has the same binder, all
  else reads as before, and no scope gets or loses a name.
- What fails says which variable is not bound, with the line of its token, and
  leaves the machine as it was. -/
theorem lookup_in_forest {s : Store} (hs : s.Built) :
    (∀ f (y : Token) v, s.read f y = .ok v ↔ ∃ b scope,
      s.Binder y.lexeme f b ∧ s.scope? b = some scope ∧ scope.find? y.lexeme = some v) ∧
    (∀ e x v f (y : Token),
      (y.lexeme = x ∧ s.Visible x f e → (s.define e x v).read f y = .ok v) ∧
      (¬ (y.lexeme = x ∧ s.Visible x f e) → (s.define e x v).read f y = s.read f y)) ∧
    (∀ e (x : Token) v,
      ((∃ s', s.write e x v = .ok s') ↔
        ∃ path, s.Outward e path ∧ ∃ j ∈ path, s.bindsAt x.lexeme j = true) ∧
      ∀ s', s.write e x v = .ok s' →
        (∀ f (y : Token),
          let shared := y.lexeme = x.lexeme ∧
            ∃ b, s.Binder x.lexeme f b ∧ s.Binder x.lexeme e b
          (shared → s'.read f y = .ok v) ∧ (¬ shared → s'.read f y = s.read f y)) ∧
        ∀ j, (s'.scope? j).map Scope.outline = (s.scope? j).map Scope.outline) ∧
    ∀ m : State, m.store = s →
      (∀ f y err, s.read f y = .error err →
        Machine.read f y m = .error (.error err) m ∧ err.Unbound y) ∧
      ∀ e x v err, s.write e x v = .error err →
        Machine.assign e x v m = .error (.error err) m ∧ err.Unbound x := by
  have hordered := hs.ordered
  refine ⟨fun f y v => ?_, fun e x v f y => ⟨fun hvisible => ?_, fun hvisible => ?_⟩,
    fun e x v => ⟨?_, fun s' hwrite => ⟨fun f y => ?_, Store.outline_of_write hwrite⟩⟩, ?_⟩
  · rw [Store.read_eq_ok, hordered.get?_eq_some]
  · rw [Store.read_eq_ok, hordered.get?_define, if_pos hvisible]
  · exact Store.read_congr (by rw [hordered.get?_define, if_neg hvisible])
  · rw [hordered.exists_write_iff, Store.exists_binder_iff]
  · have hget := hordered.get?_of_write hwrite f y.lexeme
    exact ⟨fun hshared => Store.read_eq_ok.2 (hget.trans (if_pos hshared)),
      fun hshared => Store.read_congr (hget.trans (if_neg hshared))⟩
  · rintro m rfl
    refine ⟨fun f y err hread => ?_, fun e x v err hwrite => ?_⟩
    · rw [Machine.read_eq, hread]
      exact ⟨rfl, Store.unbound_of_read hread⟩
    · rw [Machine.assign_eq, hwrite]
      exact ⟨rfl, Store.unbound_of_write hwrite⟩

/-- A scope that binds a name with two scopes in it, of which the second one
binds the name too, and a scope beside them. -/
def shadowed : Store :=
  (((((Store.create {} none).define 0 "a" (.bool true)).create (some 0)).create (some 0)).define 2
    "a" (.bool false)).create none

/-- An assignment in the first inner scope is seen from the outer one, not
from the second one, and the scope beside them knows of no such variable. -/
theorem shadowed_lookup :
    let a : Token := ⟨.identifier, "a", .nil, 7⟩
    shadowed.Built ∧ ∃ s', shadowed.write 1 a .nil = .ok s' ∧ s'.read 0 a = .ok .nil ∧
      s'.read 2 a = .ok (.bool false) ∧ ∃ err, shadowed.read 3 a = .error err ∧ err.line = 7 := by
  intro a
  have hbuilt : shadowed.Built := by
    refine .create none (.define 2 "a" _ (.create (some 0) (.create (some 0)
      (.define 0 "a" _ (.create none .empty nofun) ?_) ?_) ?_) ?_) nofun
    all_goals simp
  obtain ⟨-, -, hassign, hfail⟩ := lookup_in_forest hbuilt
  obtain ⟨s', hwrite⟩ : ∃ s', shadowed.write 1 a .nil = .ok s' := ⟨_, rfl⟩
  obtain ⟨hread, -⟩ := (hassign 1 a .nil).2 s' hwrite
  -- the owners of the name, seen from each scope
  have hbinder (f b : ScopeId) (h : shadowed.owner? f "a" = some b) : shadowed.Binder "a" f b :=
    hbuilt.ordered.owner?_eq_some.1 h
  refine ⟨hbuilt, s', hwrite, (hread 0 a).1 ⟨rfl, 0, hbinder 0 0 (by decide), hbinder 1 0
    (by decide)⟩, ?_, _, rfl, ((hfail ⟨shadowed, #[], "", ⟨fun _ => 0, 0⟩⟩ rfl).1 3 a _ rfl).2.line⟩
  refine ((hread 2 a).2 ?_).trans rfl
  rintro ⟨-, b, h2, h1⟩
  have hown := (hbinder 2 2 (by decide)).unique hbuilt.ordered h2
  have houter := (hbinder 1 0 (by decide)).unique hbuilt.ordered h1
  exact absurd (hown.symm.trans houter) (by decide)

end Treewalk
