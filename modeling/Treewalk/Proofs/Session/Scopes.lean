import Treewalk.Proofs.Evaluation.Names
import Treewalk.Proofs.Scope.Chains
import Treewalk.Proofs.Session.Confinement
import Treewalk.Proofs.Session.History

/-!
# The scopes of a session stay well formed

Nothing that a session is called to do can break its store of scopes. Two
facts about evaluation carry this. It keeps states tidy, so parents come
first and functions keep scopes that exist; and it gets on by small steps
that lose nothing and give every new scope a parent, so the outermost scope
stays the only one without.
-/

namespace Treewalk

open Machine

/-- A state with a well-formed store, and with no declared function among the
literals of its code. -/
structure State.WellFormed (s : State) : Prop where
  store : s.store.WellFormed
  plain : s.PlainCode

namespace State

variable {s t : State}

theorem WellFormed.tidy (h : s.WellFormed) : s.Tidy := ⟨h.store.ordered, h.store.closures, h.plain⟩

/-- The clock is bound in the only scope there is at first. -/
theorem wellFormed_initial (reading : ℕ → Float) : (State.initial reading).WellFormed where
  plain := (State.tidy_initial reading).plain
  store :=
    { root := ⟨_, rfl, rfl, rfl⟩
      enclosed := by
        intro i scope hscope hi
        have hlt := Store.lt_size hscope
        exact absurd (Nat.lt_one_iff.1 hlt) hi
      closures := (State.tidy_initial reading).values }

/-- Small steps give every new scope a parent. -/
theorem Leads.enclosed (h : s.Leads t)
    (hs : ∀ i scope, s.store.scope? i = some scope → i ≠ globalScope → scope.parent ≠ none)
    (i : ScopeId) (scope : Scope) (hscope : t.store.scope? i = some scope)
    (hi : i ≠ globalScope) : scope.parent ≠ none := by
  induction h generalizing i scope with
  | refl => exact hs i scope hscope hi
  | opened parent _ ih =>
    rcases Store.scope?_create_cases hscope with hold | ⟨-, rfl⟩
    · exact ih i scope hold hi
    · exact Option.some_ne_none parent
  | bound j x v _ ih =>
    obtain ⟨old, hold, hparent, -⟩ := Store.scope?_define_cases hscope
    rw [hparent]
    exact ih i old hold hi
  | numbered _ _ ih | printed _ _ ih | timed _ _ ih => exact ih i scope hscope hi

/-- **Small steps that keep a state tidy keep it well formed.** -/
theorem Leads.wellFormed (h : s.Leads t) (hs : s.WellFormed) (ht : t.Tidy) : t.WellFormed where
  plain := ht.plain
  store :=
    { root := by
        obtain ⟨scope, hscope, hnone, hclock⟩ := hs.store.root
        obtain ⟨scope', hscope', hparent, added, hnames, -⟩ := h.grows globalScope scope hscope
        refine ⟨scope', hscope', hparent.trans hnone, ?_⟩
        rw [Scope.binds_iff] at hclock ⊢
        rw [hnames]
        exact List.mem_append_left added hclock
      enclosed := by
        intro i scope hscope hi
        have hparent := h.enclosed (fun j old hold hj => by
          obtain ⟨p, -, hp⟩ := hs.store.enclosed j old hold hj
          rw [hp]
          exact Option.some_ne_none p) i scope hscope hi
        obtain ⟨p, hp⟩ := Option.ne_none_iff_exists'.1 hparent
        exact ⟨p, ht.ordered i scope p hscope hp, hp⟩
      closures := ht.values }

theorem Leads.runProgram (h : s.Leads t) (limits : Limits) (program : List Stmt) :
    s.Leads (final (runProgram limits program t)) :=
  (Realm.stays_runProgram (n := 0) (lawful_realm s) limits program trivial
    (fun _ _ => ⟨fun _ _ => trivial, fun _ _ => trivial⟩) t h (Nat.zero_le _)).final.1

namespace WellFormed

/-- Evaluation keeps a state well formed. -/
theorem evaluate (h : s.WellFormed) (rounds depth : ℕ) {e : Expr} (he : e.Plain) {i : ScopeId}
    (hi : i < s.size) : (final (evaluate rounds depth e i s)).WellFormed :=
  (Leads.refl.evaluate rounds depth e i).wellFormed h (h.tidy.evaluate rounds depth he hi)

/-- So does execution. -/
theorem execute (h : s.WellFormed) (rounds depth : ℕ) {st : Stmt} (hst : st.Plain) {i : ScopeId}
    (hi : i < s.size) : (final (execute rounds depth st i s)).WellFormed :=
  (Leads.refl.execute rounds depth st i).wellFormed h (h.tidy.execute rounds depth hst hi).1

end WellFormed

end State

namespace Session

/-- A call gets on by small steps. -/
theorem Call.leads_perform {s₀ : State} {s : Session} (h : s₀.Leads s.state) (c : Call) :
    s₀.Leads (c.perform s).state := by
  rcases c.perform_cases s with rfl | ⟨limits, source, -, -, -, hperform⟩ | ⟨-, -, _, hperform⟩
  · exact h
  · rw [hperform, run_snd]
    dsimp only
    split
    · exact h.runProgram limits _
    · exact h
  · rw [hperform]
    exact h

theorem leads_after (s : Session) (calls : List Call) : s.state.Leads (s.after calls).state := by
  induction calls using List.reverseRecOn with
  | nil => exact .refl
  | append_singleton calls c ih =>
    rw [after_concat]
    exact Call.leads_perform ih c

/-- **A session stays well formed**, whatever it is called to do. -/
theorem wellFormed_after (colored : Bool) (clock : ℕ → Float) (painter : Painter)
    (calls : List Call) :
    ((start colored clock painter).after calls).state.WellFormed :=
  (leads_after _ calls).wellFormed (State.wellFormed_initial clock)
    ((Reachable.start colored clock painter).after calls).tidy.1

end Session

/-- **The scopes of a session always form one tree.** After any calls made to
a new session, however their runs ended: the outermost scope has no parent
and binds the clock, every other scope lies in one that was created before
it, and every function that is bound anywhere keeps a scope that exists.
Evaluation keeps to this at every point of a run, however it ends. In such a
state the way outward from each scope is a finite list of scopes that ends
with the outermost one, and the search for any name comes to an end, with one
result. -/
theorem scopes_form_tree (colored : Bool) (clock : ℕ → Float) (painter : Painter)
    (calls : List Session.Call) :
    ((Session.start colored clock painter).after calls).state.WellFormed ∧
    (∀ limits source, ∀ st ∈ statementsOf limits source, st.Plain) ∧
    ∀ s : State, s.WellFormed → ∀ i < s.size,
      (∀ rounds depth,
        (∀ e : Expr, e.Plain → (final (evaluate rounds depth e i s)).WellFormed) ∧
        ∀ st : Stmt, st.Plain → (final (execute rounds depth st i s)).WellFormed) ∧
      (s.store.Outward i (s.store.chain i) ∧ (s.store.chain i).IsChain (· > ·) ∧
        (s.store.chain i).getLast? = some globalScope) ∧
      ∀ x r, s.store.Search x (some i) r ↔ r = s.store.owner? i x := by
  refine ⟨Session.wellFormed_after colored clock painter calls,
    fun limits source st hst => plain_of_mem_parse _ hst, fun s hs i hi => ?_⟩
  refine ⟨fun rounds depth => ⟨fun e he => hs.evaluate rounds depth he hi,
    fun st hst => hs.execute rounds depth hst hi⟩, hs.store.outward_chain hi, fun x r => ?_⟩
  have hsearch := hs.store.search_owner? hi x
  constructor
  · exact hsearch.unique
  · rintro rfl
    exact hsearch

end Treewalk
