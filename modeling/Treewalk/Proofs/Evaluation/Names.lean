import Treewalk.Proofs.Evaluation.Realm

/-!
# The names of scopes

Evaluating an expression and running a block leave the names of every scope
as they were. A statement adds names to the scope it runs in and to no other
one, and only those it declares there itself. Names are never taken back and
no scope ever gets another parent, so a variable that has been found once
will always be found. None of this depends on how the run ends.
-/

namespace Treewalk

open Machine

/-! ## Stores that grow -/

/-- Every scope of the first store is in the second one too, with the parent
it had, and with the names it had in front of further ones that `P` allows. -/
def Store.Grows (P : ScopeId → String → Prop) (s s' : Store) : Prop :=
  ∀ i scope, s.scope? i = some scope → ∃ scope', s'.scope? i = some scope' ∧
    scope'.parent = scope.parent ∧ ∃ added,
      scope'.bindings.map (·.1) = scope.bindings.map (·.1) ++ added ∧ ∀ x ∈ added, P i x

/-- Every scope of the first store is in the second one too, with the parent
and exactly the names it had. -/
def Store.KeepsNames (s s' : Store) : Prop :=
  ∀ i scope, s.scope? i = some scope → ∃ scope', s'.scope? i = some scope' ∧
    scope'.parent = scope.parent ∧ scope'.bindings.map (·.1) = scope.bindings.map (·.1)

namespace Store.Grows

variable {P : ScopeId → String → Prop} {s s' : Store}

theorem refl (P : ScopeId → String → Prop) (s : Store) : s.Grows P s :=
  fun _ scope hscope => ⟨scope, hscope, rfl, [], (List.append_nil _).symm, nofun⟩

theorem keepsNames (h : s.Grows P s') (hP : ∀ i x, ¬ P i x) : s.KeepsNames s' := by
  intro i scope hscope
  obtain ⟨scope', hscope', hparent, added, hadded, hnames⟩ := h i scope hscope
  obtain rfl : added = [] := List.eq_nil_iff_forall_not_mem.2 fun x hx => hP i x (hnames x hx)
  exact ⟨scope', hscope', hparent, hadded.trans (List.append_nil _)⟩

theorem size_le (h : s.Grows P s') : s.scopes.size ≤ s'.scopes.size := by
  rcases Nat.lt_or_ge s'.scopes.size s.scopes.size with hlt | hge
  · -- the scope that would be missing
    obtain ⟨scope, hscope⟩ := Store.exists_scope hlt
    obtain ⟨scope', hscope', -⟩ := h _ scope hscope
    exact absurd (Store.lt_size hscope') (Nat.lt_irrefl _)
  · exact hge

theorem create (h : s.Grows P s') (parent : Option ScopeId) : s.Grows P (s'.create parent) := by
  intro i scope hscope
  obtain ⟨scope', hscope', hrest⟩ := h i scope hscope
  exact ⟨scope', (Store.scope?_create_of_lt parent (Store.lt_size hscope')).trans hscope', hrest⟩

/-- A name may be bound that is bound already, or that is allowed, or in a
scope that the first store does not have. -/
theorem define (h : s.Grows P s') {i : ScopeId} {x : String} (v : Value)
    (hx : s'.bindsAt x i = true ∨ s.scopes.size ≤ i ∨ P i x) : s.Grows P (s'.define i x v) := by
  intro j scope hscope
  obtain ⟨scope', hscope', hparent, added, hadded, hP⟩ := h j scope hscope
  by_cases hij : i = j
  · subst hij
    refine ⟨_, Store.scope?_define_self x v hscope', hparent, ?_⟩
    rw [Scope.bindings_define, Scope.map_fst_put]
    split
    · exact ⟨added, hadded, hP⟩
    · rename_i hnew
      refine ⟨added ++ [x], by rw [hadded, List.append_assoc], ?_⟩
      rcases hx with hbound | hsize | hallowed
      · rw [Store.bindsAt, hscope'] at hbound
        exact absurd (Scope.binds_iff.1 hbound) hnew
      · exact absurd (Store.lt_size hscope) (Nat.not_lt.2 hsize)
      · exact List.forall_mem_append.2 ⟨hP, List.forall_mem_singleton.2 hallowed⟩
  · exact ⟨scope', (Store.scope?_define_of_ne x v hij).trans hscope', hparent, added, hadded, hP⟩

/-- Seen from each scope, the old chain is the start of the new one. -/
theorem chainWithin_prefix (h : s.Grows P s') (room : ℕ) (i : ScopeId) :
    s.chainWithin room i <+: s'.chainWithin room i := by
  induction room generalizing i with
  | zero => exact List.prefix_rfl
  | succ room ih =>
    rw [Store.chainWithin, Store.chainWithin]
    cases hscope : s.scope? i with
    | none => exact List.nil_prefix
    | some scope =>
      obtain ⟨scope', hscope', hparent, -⟩ := h i scope hscope
      simp only [hscope', hparent]
      cases scope.parent with
      | none => exact List.prefix_rfl
      | some p => exact (List.prefix_cons_inj i).2 (ih p)

theorem bindsAt (h : s.Grows P s') {i : ScopeId} {x : String} (hx : s.bindsAt x i = true) :
    s'.bindsAt x i = true := by
  unfold Store.bindsAt at hx ⊢
  cases hscope : s.scope? i with
  | none =>
    rw [hscope] at hx
    cases hx
  | some scope =>
    rw [hscope] at hx
    obtain ⟨scope', hscope', -, added, hadded, -⟩ := h i scope hscope
    rw [hscope']
    refine Scope.binds_iff.2 ?_
    rw [hadded]
    exact List.mem_append_left _ (Scope.binds_iff.1 hx)

/-- **A variable that was found is still found.** -/
theorem isSome_get? (h : s.Grows P s') {i : ScopeId} {x : String}
    (hx : (s.get? i x).isSome = true) : (s'.get? i x).isSome = true := by
  rw [Store.isSome_get?, Store.owner?, List.find?_isSome] at hx ⊢
  obtain ⟨owner, hmem, hbinds⟩ := hx
  exact ⟨owner, (h.chainWithin_prefix (i + 1) i).subset hmem, h.bindsAt hbinds⟩

end Store.Grows

/-! ## The realm of allowed names -/

/-- The realm in which, of the scopes of a given state, only allowed names
may be declared. -/
def allowing (s : State) (P : ScopeId → String → Prop) : Realm where
  law t := s.store.Grows P t.store
  scope _ _ := True
  name i x := s.size ≤ i ∨ P i x
  literal _ := True

theorem lawful_allowing (s : State) (P : ScopeId → String → Prop) : (allowing s P).Lawful where
  mono _ _ := trivial
  literal _ _ _ _ := trivial
  code _ _ _ _ := trivial
  opened h _ := ⟨Store.Grows.create h _, trivial, fun _ => .inl (Store.Grows.size_le h)⟩
  read _ _ _ _ _ := trivial
  defined h _ hx _ := Store.Grows.define h _ (.inr hx)
  -- an assignment finds its name bound
  assigned h _ howner _ := Store.Grows.define h _ (.inl (Store.bindsAt_of_owner? howner))
  numbered h _ := h
  printed _ h := h
  timed _ h := h

section

variable (rounds depth : ℕ) (s : State) (i : ScopeId)

/-- An expression declares nothing. -/
theorem keepsNames_evaluate (e : Expr) :
    s.store.KeepsNames (final (evaluate rounds depth e i s)).store := by
  have hlaw := ((Realm.stays_evaluate_execute (lawful_allowing s fun _ _ => False) rounds depth).1
    e (fun _ _ => trivial) 0 i trivial s (.refl _ _) (Nat.zero_le _)).final.1
  exact Store.Grows.keepsNames hlaw fun _ _ => id

/-- A statement declares its own names in its own scope. -/
theorem grows_execute (st : Stmt) :
    s.store.Grows (fun j x => j = i ∧ x ∈ st.declared)
      (final (execute rounds depth st i s)).store :=
  ((Realm.stays_evaluate_execute (lawful_allowing s _) rounds depth).2 st (fun _ _ => trivial) 0 i
    trivial (fun _ hx => .inr ⟨rfl, hx⟩) s (.refl _ _) (Nat.zero_le _)).final.1

end

/-! ## Later states -/

/-- The states that the small steps of running lead to from a state,
whatever they are given. -/
inductive State.Leads (s : State) : State → Prop
  | refl : Leads s s
  | opened {t : State} (parent : ScopeId) : Leads s t →
      Leads s { t with store := t.store.create (some parent) }
  | bound {t : State} (i : ScopeId) (x : String) (v : Value) : Leads s t →
      Leads s { t with store := t.store.define i x v }
  | numbered {t : State} (body : List Stmt) : Leads s t →
      Leads s { t with code := t.code.push body }
  | printed {t : State} (output : String) : Leads s t → Leads s { t with output := output }
  | timed {t : State} (clock : Clock) : Leads s t → Leads s { t with clock := clock }

namespace State.Leads

variable {s t : State}

/-- The realm of later states. -/
def realm (s : State) : Realm where
  law := s.Leads
  scope _ _ := True
  name _ _ := True
  literal _ := True

theorem lawful_realm (s : State) : (realm s).Lawful where
  mono _ _ := trivial
  literal _ _ _ _ := trivial
  code _ _ _ _ := trivial
  opened h _ := ⟨h.opened _, trivial, fun _ => trivial⟩
  read _ _ _ _ _ := trivial
  defined h _ _ _ := h.bound _ _ _
  assigned h _ _ _ := h.bound _ _ _
  numbered h _ := h.numbered _
  printed _ h := h.printed _
  timed _ h := h.timed _

/-- Evaluation leads to later states. -/
theorem evaluate (h : s.Leads t) (rounds depth : ℕ) (e : Expr) (i : ScopeId) :
    s.Leads (final (evaluate rounds depth e i t)) :=
  ((Realm.stays_evaluate_execute (lawful_realm s) rounds depth).1 e (fun _ _ => trivial) 0 i
    trivial t h (Nat.zero_le _)).final.1

theorem execute (h : s.Leads t) (rounds depth : ℕ) (st : Stmt) (i : ScopeId) :
    s.Leads (final (execute rounds depth st i t)) :=
  ((Realm.stays_evaluate_execute (lawful_realm s) rounds depth).2 st (fun _ _ => trivial) 0 i
    trivial (fun _ _ => trivial) t h (Nat.zero_le _)).final.1

/-- **Nothing is lost in later states.** -/
theorem grows (h : s.Leads t) : s.store.Grows (fun _ _ => True) t.store := by
  induction h with
  | refl => exact .refl _ _
  | opened parent _ ih => exact ih.create _
  | bound i x v _ ih => exact ih.define v (.inr (.inr trivial))
  | numbered _ _ ih | printed _ _ ih | timed _ _ ih => exact ih

end State.Leads

/-- **Scopes never leak.** However it ends, evaluating an expression or
running a block leaves all scopes that were there with the names and parents
they had, and running a statement adds names only in the scope it runs in,
and only those it declares there. Evaluation leads to later states; in all of
them, every scope has the parent it had and at least the names it had, and
every variable is found that was found before. -/
theorem scopes_never_leak (rounds depth : ℕ) (s : State) (i : ScopeId) :
    (∀ e, s.store.KeepsNames (final (evaluate rounds depth e i s)).store) ∧
    (∀ body, s.store.KeepsNames (final (execute rounds depth (.block body) i s)).store) ∧
    (∀ st, s.store.Grows (fun j x => j = i ∧ x ∈ Stmt.declared st)
      (final (execute rounds depth st i s)).store) ∧
    ∀ t, s.Leads t →
      (∀ e j, s.Leads (final (evaluate rounds depth e j t))) ∧
      (∀ st j, s.Leads (final (execute rounds depth st j t))) ∧
      s.store.Grows (fun _ _ => True) t.store ∧
      ∀ j x, (s.store.get? j x).isSome = true → (t.store.get? j x).isSome = true := by
  have hblock (body : List Stmt) :
      s.store.KeepsNames (final (execute rounds depth (.block body) i s)).store :=
    -- a block declares no names outside of itself
    (grows_execute rounds depth s i (.block body)).keepsNames fun _ _ h =>
      absurd h.2 List.not_mem_nil
  exact ⟨keepsNames_evaluate rounds depth s i, hblock, grows_execute rounds depth s i,
    fun t ht => ⟨ht.evaluate rounds depth, ht.execute rounds depth, ht.grows, fun j x hx =>
      ht.grows.isSome_get? hx⟩⟩

end Treewalk
