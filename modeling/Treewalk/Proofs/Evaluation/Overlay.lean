import Treewalk.Proofs.Evaluation.Tidy

/-!
# Runs that differ by empty scopes

One run may open scopes that another one of the same code does not: scopes
that nothing is ever bound in. An overlay says which scopes of the first run
stand for which of the second (`pair`), and which are such blanks, each in
front of a scope of its own (`blank`). A scope sees through blanks, so names
mean the same in both runs; and code that declares nothing in a blank runs
the same way in front of it as behind it. Results agree up to the scopes
that functions keep, which are again seen the same.

Overlays only grow. `Steps w Q m m'` speaks of all overlays that `w` can
have grown to, so that what was seen at first is seen all the while. They are
the worlds of a walk (`Overlay.walk`).
-/

namespace Treewalk

open Machine

/-- How the scopes of one run stand for those of another. -/
structure Overlay where
  /-- Scopes that stand for each other. -/
  pair : ScopeId → ScopeId → Prop
  /-- Scopes of the first run that stand for none, and what they are in
  front of. -/
  blank : ScopeId → ScopeId → Prop

namespace Overlay

instance : Preorder Overlay where
  le w w' := (∀ i i', w.pair i i' → w'.pair i i') ∧ ∀ i p, w.blank i p → w'.blank i p
  le_refl _ := ⟨fun _ _ => id, fun _ _ => id⟩
  le_trans _ _ _ h h' :=
    ⟨fun i i' hp => h'.1 i i' (h.1 i i' hp), fun i p hb => h'.2 i p (h.2 i p hb)⟩

variable {w w' : Overlay} {i i' n n' : ScopeId} {v v' : Value} {s s' : State}

/-- A scope of the first run that shows the same names as one of the second:
it stands for it, or it is a blank in front of such a scope. -/
inductive Sees (w : Overlay) : ScopeId → ScopeId → Prop
  | here {i i' : ScopeId} : w.pair i i' → Sees w i i'
  | through {i p i' : ScopeId} : w.blank i p → Sees w p i' → Sees w i i'

theorem Sees.mono (hle : w ≤ w') (h : w.Sees i i') : w'.Sees i i' := by
  induction h with
  | here hp => exact .here (hle.1 _ _ hp)
  | through hb _ ih => exact .through (hle.2 _ _ hb) ih

/-- Values that differ at most in the scope that a function keeps, and there
see the same. -/
abbrev Values (w : Overlay) : Value → Value → Prop := Value.Agree w.Sees

theorem values_mono (hle : w ≤ w') (h : w.Values v v') : w'.Values v v' :=
  h.mono fun _ _ hi => hi.mono hle

/-- Completions with such values. -/
abbrev Completions (w : Overlay) : Completion → Completion → Prop := Completion.Agree w.Sees

/-- Scopes with such bindings, whose parents see the same. -/
structure Scopes (w : Overlay) (scope scope' : Scope) : Prop where
  bindings : BindingsAgree w.Sees scope.bindings scope'.bindings
  parent : Option.Rel w.Sees scope.parent scope'.parent

theorem Scopes.mono {scope scope' : Scope} (hle : w ≤ w') (h : w.Scopes scope scope') :
    w'.Scopes scope scope' where
  bindings := h.bindings.imp fun _ _ hb => ⟨hb.1, values_mono hle hb.2⟩
  parent := by
    obtain ⟨bindings, parent⟩ := scope
    obtain ⟨bindings', parent'⟩ := scope'
    cases h.parent with
    | none => exact .none
    | some hp => exact .some (hp.mono hle)

/-- States of two runs under an overlay. The pairs are one to one, and blanks
bind nothing. -/
structure States (w : Overlay) (s s' : State) : Prop where
  code : s'.code = s.code
  output : s'.output = s.output
  clock : s'.clock = s.clock
  plain : s.PlainCode
  ordered : s.store.Ordered
  ordered' : s'.store.Ordered
  pairs : ∀ i i', w.pair i i' → ∃ scope scope', s.store.scope? i = some scope ∧
    s'.store.scope? i' = some scope' ∧ w.Scopes scope scope'
  blanks : ∀ i p, w.blank i p → s.store.scope? i = some { parent := some p }
  one : ∀ i i' j', w.pair i i' → w.pair i j' → i' = j'
  one' : ∀ i j i', w.pair i i' → w.pair j i' → i = j
  apart : ∀ i i' p, w.pair i i' → ¬ w.blank i p

namespace States

theorem pair_lt (h : w.States s s') (hp : w.pair i i') : i < s.size ∧ i' < s'.size := by
  obtain ⟨scope, scope', hscope, hscope', -⟩ := h.pairs i i' hp
  exact ⟨Store.lt_size hscope, Store.lt_size hscope'⟩

theorem sees_lt (h : w.States s s') (hi : w.Sees i i') : i < s.size ∧ i' < s'.size := by
  induction hi with
  | here hp => exact h.pair_lt hp
  | through hb _ ih => exact ⟨Store.lt_size (h.blanks _ _ hb), ih.2⟩

/-! ## Names mean the same -/

/-- The owner of a name is the same scope in both runs. -/
theorem owner? (h : w.States s s') (hi : w.Sees i i') (x : String) :
    Option.Rel w.pair (s.store.owner? i x) (s'.store.owner? i' x) := by
  induction i using Nat.strongRecOn generalizing i' with
  | ind i ih =>
    cases hi with
    | here hp =>
      obtain ⟨scope, scope', hscope, hscope', hbindings, hparent⟩ := h.pairs i i' hp
      have hbinds : scope'.binds x = scope.binds x := by
        have hrel := Scope.rel_lookup x hbindings
        unfold Scope.binds Scope.find?
        generalize scope.bindings.lookup x = a, scope'.bindings.lookup x = b at hrel
        cases hrel with
        | none => rfl
        | some _ => rfl
      rw [h.ordered.owner?_eq hscope, h.ordered'.owner?_eq hscope', hbinds]
      cases scope.binds x with
      | true => exact .some hp
      | false =>
        -- neither binds the name, so it is looked up in the parents
        have hlt := h.ordered i scope
        generalize scope.parent = parent, scope'.parent = parent' at hparent hlt
        cases hparent with
        | none => exact .none
        | some hp => exact ih _ (hlt _ hscope rfl) hp
    | through hb hp =>
      rw [h.ordered.owner?_eq (h.blanks i _ hb)]
      exact ih _ (h.ordered i _ _ (h.blanks i _ hb) rfl) hp

theorem get? (h : w.States s s') (hi : w.Sees i i') (x : String) :
    Option.Rel w.Values (s.store.get? i x) (s'.store.get? i' x) := by
  unfold Store.get?
  have howner := h.owner? hi x
  generalize s.store.owner? i x = owner, s'.store.owner? i' x = owner' at howner
  cases howner with
  | none => exact .none
  | some hp =>
    obtain ⟨scope, scope', hscope, hscope', hbindings, -⟩ := h.pairs _ _ hp
    simp only [Option.bind_eq_bind, Option.bind_some, hscope, hscope']
    exact Scope.rel_lookup x hbindings

end States

/-! ## Overlays that grow -/

/-- The overlay with one more pair. -/
def link (w : Overlay) (n n' : ScopeId) : Overlay where
  pair i i' := w.pair i i' ∨ i = n ∧ i' = n'
  blank := w.blank

theorem le_link (w : Overlay) (n n' : ScopeId) : w ≤ w.link n n' :=
  ⟨fun _ _ => .inl, fun _ _ => id⟩

/-- The overlay with one more blank. -/
def insert (w : Overlay) (n p : ScopeId) : Overlay where
  pair := w.pair
  blank i q := w.blank i q ∨ i = n ∧ q = p

theorem le_insert (w : Overlay) (n p : ScopeId) : w ≤ w.insert n p :=
  ⟨fun _ _ => id, fun _ _ => .inl⟩

namespace States

/-- Both runs open a scope. -/
theorem opened (h : w.States s s') (hi : w.Sees i i') :
    (w.link s.size s'.size).States { s with store := s.store.create (some i) }
      { s' with store := s'.store.create (some i') } where
  code := h.code
  output := h.output
  clock := h.clock
  plain := h.plain
  ordered := h.ordered.create (h.sees_lt hi).1
  ordered' := h.ordered'.create (h.sees_lt hi).2
  pairs := by
    rintro j j' (hj | ⟨rfl, rfl⟩)
    · obtain ⟨scope, scope', hscope, hscope', hscopes⟩ := h.pairs j j' hj
      exact ⟨scope, scope', (Store.scope?_create_of_lt _ (h.pair_lt hj).1).trans hscope,
        (Store.scope?_create_of_lt _ (h.pair_lt hj).2).trans hscope',
        hscopes.mono (w.le_link _ _)⟩
    · exact ⟨_, _, Store.scope?_create_size _ _, Store.scope?_create_size _ _, .nil,
        .some (hi.mono (w.le_link _ _))⟩
  blanks j p hj := (Store.scope?_create_of_lt _ (Store.lt_size (h.blanks j p hj))).trans
    (h.blanks j p hj)
  one := by
    rintro j j' k' (hj | ⟨rfl, rfl⟩) (hk | ⟨hk, rfl⟩)
    · exact h.one j j' k' hj hk
    · exact absurd hk (Nat.ne_of_lt (h.pair_lt hj).1)
    · exact absurd (h.pair_lt hk).1 (Nat.lt_irrefl _)
    · rfl
  one' := by
    rintro j k j' (hj | ⟨rfl, rfl⟩) (hk | ⟨rfl, hk⟩)
    · exact h.one' j k j' hj hk
    · exact absurd hk (Nat.ne_of_lt (h.pair_lt hj).2)
    · exact absurd (h.pair_lt hk).2 (Nat.lt_irrefl _)
    · rfl
  apart := by
    rintro j j' p (hj | ⟨rfl, rfl⟩) hb
    · exact h.apart j j' p hj hb
    · exact Nat.lt_irrefl _ (Store.lt_size (h.blanks _ p hb))

/-- The first run alone opens a scope. -/
theorem inserted (h : w.States s s') (hi : w.Sees i i') :
    (w.insert s.size i).States { s with store := s.store.create (some i) } s' where
  code := h.code
  output := h.output
  clock := h.clock
  plain := h.plain
  ordered := h.ordered.create (h.sees_lt hi).1
  ordered' := h.ordered'
  pairs j j' hj := by
    obtain ⟨scope, scope', hscope, hscope', hscopes⟩ := h.pairs j j' hj
    exact ⟨scope, scope', (Store.scope?_create_of_lt _ (h.pair_lt hj).1).trans hscope, hscope',
      hscopes.mono (w.le_insert _ _)⟩
  blanks := by
    rintro j p (hj | ⟨rfl, rfl⟩)
    · exact (Store.scope?_create_of_lt _ (Store.lt_size (h.blanks j p hj))).trans (h.blanks j p hj)
    · exact Store.scope?_create_size _ _
  one := h.one
  one' := h.one'
  apart := by
    rintro j j' p hj (hb | ⟨rfl, rfl⟩)
    · exact h.apart j j' p hj hb
    · exact Nat.lt_irrefl _ (h.pair_lt hj).1

/-- Both runs bind a name in scopes that stand for each other. -/
theorem bound (h : w.States s s') (hi : w.pair i i') (x : String) (hv : w.Values v v') :
    w.States { s with store := s.store.define i x v }
      { s' with store := s'.store.define i' x v' } where
  code := h.code
  output := h.output
  clock := h.clock
  plain := h.plain
  ordered := h.ordered.define i x v
  ordered' := h.ordered'.define i' x v'
  pairs j j' hj := by
    obtain ⟨scope, scope', hscope, hscope', hscopes⟩ := h.pairs j j' hj
    by_cases hij : i = j
    · subst hij
      obtain rfl := h.one i i' j' hi hj
      exact ⟨_, _, Store.scope?_define_self x v hscope, Store.scope?_define_self x v' hscope',
        Scope.forall₂_put x hv hscopes.bindings, hscopes.parent⟩
    · have hij' : i' ≠ j' := by
        rintro rfl
        exact hij (h.one' i j i' hi hj)
      exact ⟨scope, scope', (Store.scope?_define_of_ne x v hij).trans hscope,
        (Store.scope?_define_of_ne x v' hij').trans hscope', hscopes⟩
  blanks j p hj := by
    have hij : i ≠ j := by
      rintro rfl
      exact h.apart i i' p hi hj
    exact (Store.scope?_define_of_ne x v hij).trans (h.blanks j p hj)
  one := h.one
  one' := h.one'
  apart := h.apart

theorem numbered (h : w.States s s') {body : List Stmt}
    (hbody : ∀ v ∈ Stmt.literalsAll body, v.scope? = none) :
    w.States { s with code := s.code.push body } { s' with code := s'.code.push body } :=
  { h with code := congrArg (·.push body) h.code, plain := h.plain.push hbody }

theorem body (h : w.States s s') (id : ℕ) : s'.body id = s.body id := by
  rw [State.body, State.body, h.code]

end States

/-! ## Steps of both runs -/

variable {α α' β β' : Type}

/-- Results of two runs under an overlay that may have grown. -/
inductive Ends (w : Overlay) (Q : Overlay → α → α' → Prop) :
    EStateM.Result Stop State α → EStateM.Result Stop State α' → Prop
  | ok {w' : Overlay} {a : α} {a' : α'} {s s' : State} : w ≤ w' → w'.States s s' → Q w' a a' →
      Ends w Q (.ok a s) (.ok a' s')
  | error {w' : Overlay} {e : Stop} {s s' : State} : w ≤ w' → w'.States s s' →
      Ends w Q (.error e s) (.error e s')

/-- Steps that lead to such results, under whatever `w` has grown to. -/
def Steps (w : Overlay) (Q : Overlay → α → α' → Prop) (m : Machine α) (m' : Machine α') : Prop :=
  ∀ w₁ s s', w ≤ w₁ → w₁.States s s' → w₁.Ends Q (m s) (m' s')

section

variable {Q : Overlay → α → α' → Prop} {Q' : Overlay → β → β' → Prop}

theorem Ends.of_le {r : EStateM.Result Stop State α} {r' : EStateM.Result Stop State α'}
    (hle : w ≤ w') (h : w'.Ends Q r r') : w.Ends Q r r' := by
  cases h with
  | ok hle' hs hQ => exact .ok (le_trans hle hle') hs hQ
  | error hle' hs => exact .error (le_trans hle hle') hs

theorem Steps.of_le {m : Machine α} {m' : Machine α'} (hle : w ≤ w') (h : w.Steps Q m m') :
    w'.Steps Q m m' :=
  fun w₁ s s' hle' hs => h w₁ s s' (le_trans hle hle') hs

theorem steps_pure {a : α} {a' : α'} (h : ∀ w', w ≤ w' → Q w' a a') :
    w.Steps Q (pure a) (pure a') :=
  fun w₁ _ _ hle hs => .ok (le_refl w₁) hs (h w₁ hle)

theorem steps_throw (e : Stop) : w.Steps Q (throw e : Machine α) (throw e : Machine α') :=
  fun w₁ _ _ _ hs => .error (le_refl w₁) hs

theorem Steps.bind {m : Machine α} {m' : Machine α'} {k : α → Machine β} {k' : α' → Machine β'}
    (hm : w.Steps Q m m')
    (hk : ∀ w₁ a a', w ≤ w₁ → Q w₁ a a' → w₁.Steps Q' (k a) (k' a')) :
    w.Steps Q' (m >>= k) (m' >>= k') := by
  intro w₁ s s' hle hs
  have hrun := hm w₁ s s' hle hs
  change w₁.Ends Q' (EStateM.bind m k s) (EStateM.bind m' k' s')
  unfold EStateM.bind
  generalize m s = r, m' s' = r' at hrun
  cases hrun with
  | ok hle₂ hs₂ ha =>
    exact (hk _ _ _ (le_trans hle hle₂) ha _ _ _ (le_refl _) hs₂).of_le hle₂
  | error hle₂ hs₂ => exact .error hle₂ hs₂

end

theorem Steps.imp {Q Q₁ : Overlay → α → α' → Prop} {m : Machine α} {m' : Machine α'}
    (hm : w.Steps Q m m') (h : ∀ w a a', Q w a a' → Q₁ w a a') : w.Steps Q₁ m m' := by
  intro w₁ s s' hle hs
  have hrun := hm w₁ s s' hle hs
  generalize m s = r, m' s' = r' at hrun ⊢
  cases hrun with
  | ok hle₂ hs₂ ha => exact .ok hle₂ hs₂ (h _ _ _ ha)
  | error hle₂ hs₂ => exact .error hle₂ hs₂

theorem steps_openScope (hi : w.Sees i i') :
    w.Steps (fun w' n n' => w'.pair n n') (openScope i) (openScope i') :=
  fun w₁ s s' hle hs =>
    .ok (w₁.le_link s.size s'.size) (hs.opened (hi.mono hle)) (.inr ⟨rfl, rfl⟩)

/-- The first run may open a blank on its own. -/
theorem steps_insert {Q : Overlay → α → α' → Prop} (hi : w.Sees i i')
    {k : ScopeId → Machine α} {m' : Machine α'}
    (hk : ∀ w₁ n, w ≤ w₁ → w₁.Sees n i' → w₁.Steps Q (k n) m') :
    w.Steps Q (openScope i >>= k) m' := by
  intro w₁ s s' hle hs
  have hgrown := w₁.le_insert s.size i
  have hsees : (w₁.insert s.size i).Sees s.size i' :=
    .through (.inr ⟨rfl, rfl⟩) ((hi.mono hle).mono hgrown)
  exact (hk _ s.size (le_trans hle hgrown) hsees _ _ _ (le_refl _)
    (hs.inserted (hi.mono hle))).of_le hgrown

theorem steps_define (hi : w.pair i i') (x : String) (hv : w.Values v v') :
    w.Steps (fun _ _ _ => True) (define i x v) (define i' x v') :=
  fun w₁ _ _ hle hs => .ok (le_refl w₁) (hs.bound (hle.1 _ _ hi) x (values_mono hle hv)) trivial

theorem steps_read (hi : w.Sees i i') (t : Token) : w.Steps Values (read i t) (read i' t) := by
  intro w₁ s s' hle hs
  have hget := hs.get? (hi.mono hle) t.lexeme
  rw [Machine.read, Machine.read, Store.read, Store.read]
  generalize s.store.get? i t.lexeme = a, s'.store.get? i' t.lexeme = a' at hget
  cases hget with
  | none => exact .error (le_refl w₁) hs
  | some hv => exact .ok (le_refl w₁) hs hv

theorem steps_assign (hi : w.Sees i i') (t : Token) (hv : w.Values v v') :
    w.Steps (fun _ _ _ => True) (assign i t v) (assign i' t v') := by
  intro w₁ s s' hle hs
  have howner := hs.owner? (hi.mono hle) t.lexeme
  rw [Machine.assign, Machine.assign, Store.ownerOf, Store.ownerOf]
  generalize s.store.owner? i t.lexeme = a, s'.store.owner? i' t.lexeme = a' at howner
  cases howner with
  | none => exact .error (le_refl w₁) hs
  | some hp => exact .ok (le_refl w₁) (hs.bound hp t.lexeme (values_mono hle hv)) trivial

/-- A new function keeps the scope it is declared in, in both runs under the
same number. -/
theorem steps_declare (hi : w.pair i i') (t : Token) (params : List Token) {body : List Stmt}
    (hbody : ∀ v ∈ Stmt.literalsAll body, v.scope? = none) :
    w.Steps (fun _ _ _ => True) (declare t params body i) (declare t params body i') := by
  intro w₁ s s' hle hs
  have hp := hle.1 _ _ hi
  have hf : w₁.Values (.function (.closure s.code.size t.lexeme (params.map (·.lexeme)) i))
      (.function (.closure s'.code.size t.lexeme (params.map (·.lexeme)) i')) := by
    rw [hs.code]
    exact .closure _ _ _ (.here hp)
  exact .ok (le_refl w₁) ((hs.numbered hbody).bound hp t.lexeme hf) trivial

theorem steps_bodyOf (id : ℕ) :
    w.Steps (fun _ body body' => body' = body ∧ ∀ v ∈ Stmt.literalsAll body, v.scope? = none)
      (bodyOf id) (bodyOf id) :=
  fun w₁ _ _ _ hs => .ok (le_refl w₁) hs ⟨hs.body id, hs.plain.body id⟩

theorem steps_native (id : ℕ) : w.Steps Values (native id) (native id) := by
  unfold native
  split
  · intro w₁ s s' _ hs
    change w₁.Ends Values (.ok (.number (s.clock.reading s.clock.taken)) _)
      (.ok (.number (s'.clock.reading s'.clock.taken)) _)
    rw [hs.clock]
    exact .ok (le_refl w₁) { hs with clock := rfl } (.plain rfl)
  · exact steps_pure fun _ _ => .plain rfl

theorem steps_print (hv : w.Values v v') :
    w.Steps (fun _ _ _ => True) (print v) (print v') := by
  intro w₁ s s' _ hs
  have houtput : (s'.write (v'.text ++ "\n")).output = (s.write (v.text ++ "\n")).output := by
    rw [State.write, State.write, hs.output, hv.text]
  exact .ok (le_refl w₁) { hs with output := houtput } trivial

theorem steps_ofExcept {x : Except RuntimeError Value} (h : ∀ v, x = .ok v → v.scope? = none) :
    w.Steps Values (ofExcept x) (ofExcept x) := by
  cases x with
  | ok v => exact steps_pure fun _ _ => .plain (h v rfl)
  | error e => exact steps_throw _

/-! ## The walk of an overlay -/

/-- The walk through two runs under an overlay. Names may be declared in
scopes that stand for each other. -/
def walk : Walk Overlay where
  Steps w Q m m' := w.Steps Q m m'
  scope w i i' := w.Sees i i'
  name w i i' _ := w.pair i i'
  literal v := v.scope? = none
  token _ t t' := t' = t
  holes := True
  stop e e' := e' = e

theorem lawful_walk : walk.Lawful .standard .standard where
  scope_mono hle hi := hi.mono hle
  name_mono hle hi := hle.1 _ _ hi
  mono hle h := h.of_le hle
  literal _ hv := .plain hv
  declared h := by rw [h]
  connective h := by rw [h]
  pure := steps_pure
  throw h := h ▸ steps_throw _
  bind := Steps.bind
  overflow := rfl
  endless := rfl
  malformed _ := rfl
  notCallable h := congrArg (fun t => Stop.error ⟨t, .notCallable⟩) h
  wrongArity n k h := congrArg (fun t => Stop.error ⟨t, .wrongArity n k⟩) h
  openScope hi := (steps_openScope hi).imp fun _ _ _ h => ⟨.here h, fun _ => h⟩
  define _ hi hv := steps_define hi _ hv
  read hi ht := ht ▸ steps_read hi _
  assign hi ht hv := ht ▸ steps_assign hi _ hv
  print := steps_print
  declare _ hi ht hps hss := by
    subst ht
    obtain rfl := eq_of_forall₂ (fun _ _ => Eq.symm) hps
    obtain rfl := Stmt.eq_of_forall₂_like (fun _ _ _ => Eq.symm) _ _ hss.like
    exact steps_declare hi _ _ hss.literals
  bodyOf id := by
    refine (steps_bodyOf id).imp fun _ body body' h => ?_
    obtain ⟨rfl, hplain⟩ := h
    exact ⟨Stmt.forall₂_like_self trivial _ fun _ _ _ => rfl, hplain⟩
  native := steps_native
  unary ho hv := ho ▸ Walk.steps_standard_unary (fun _ hx _ => steps_ofExcept hx) hv
  binary ho hv hu := ho ▸ Walk.steps_standard_binary (fun _ hx _ => steps_ofExcept hx) hv hu

/-- **Code runs the same under an overlay.** It may run in scopes that see
the same; where it declares names, the scopes have to stand for each
other. -/
theorem steps_evaluate_execute (rounds depth : ℕ) :
    (∀ e : Expr, e.Plain → ∀ (w : Overlay) (i i' : ScopeId), w.Sees i i' →
      w.Steps Values (evaluate rounds depth e i) (evaluate rounds depth e i')) ∧
    ∀ st : Stmt, st.Plain → ∀ (w : Overlay) (i i' : ScopeId), w.Sees i i' →
      (st.declared ≠ [] → w.pair i i') →
        w.Steps Completions (execute rounds depth st i) (execute rounds depth st i') := by
  have hruns := lawful_walk.runs rounds depth
  constructor
  · intro e he w i i' hi
    have hlike : Expr.Like walk.token walk.holes e e :=
      Expr.like_self trivial e fun _ _ _ => rfl
    exact hruns.evaluate hlike he hi
  · intro st hst w i i' hi hnames
    have hlike : Stmt.Like walk.token walk.holes st st :=
      Stmt.like_self trivial st fun _ _ _ => rfl
    exact hruns.execute hlike hst hi fun _ hx => hnames (List.ne_nil_of_mem hx)

/-! ## The overlay at the start -/

/-- Every scope of a state stands for itself. -/
def identity (s : State) : Overlay where
  pair i i' := i = i' ∧ i < s.size
  blank _ _ := False

theorem states_identity (hs : s.Tidy) : (identity s).States s s where
  code := rfl
  output := rfl
  clock := rfl
  plain := hs.plain
  ordered := hs.ordered
  ordered' := hs.ordered
  pairs := by
    rintro i _ ⟨rfl, hi⟩
    obtain ⟨scope, hscope⟩ := Store.exists_scope hi
    have hvalue : ∀ b ∈ scope.bindings, (identity s).Values b.2 b.2 := by
      intro b hb
      cases hv : b.2.scope? with
      | none => exact .plain hv
      | some k =>
        have hk := hs.values i scope hscope b hb k hv
        generalize b.2 = v at hv
        rcases v with _ | _ | _ | _ | ⟨⟨id, name, params, j⟩ | _⟩ <;> cases hv
        exact .closure id name params (.here ⟨rfl, hk⟩)
    refine ⟨scope, scope, hscope, hscope, List.forall₂_same.2 fun b hb => ⟨rfl, hvalue b hb⟩, ?_⟩
    cases hp : scope.parent with
    | none => exact .none
    | some p => exact .some (.here ⟨rfl, hs.parent_lt hscope hp⟩)
  blanks _ _ h := h.elim
  one := by
    rintro i i' j' ⟨rfl, -⟩ ⟨rfl, -⟩
    rfl
  one' := by
    rintro i j i' ⟨rfl, -⟩ ⟨rfl, -⟩
    rfl
  apart _ _ _ _ := id

end Overlay

end Treewalk
