import Treewalk.Proofs.Evaluation.Reach
import Treewalk.Proofs.Grammar.Plain
import Treewalk.Proofs.Session.Safety

/-!
# Sessions stay tidy

Nothing dangles in a session that can come up, and the trees of a source are
plain. So what an evaluation can reach bounds what it can do, in all sessions
and for all sources.
-/

namespace Treewalk

open Machine

namespace Session

variable {limits : Limits} {s : Session}

theorem state_execute (limits : Limits) (s : Session) (program : List Stmt) :
    (s.execute limits program).2.state = final (runProgram limits program s.state) := by
  unfold execute
  cases runProgram limits program s.state with
  | ok _ _ => rfl
  | error stop state => cases stop <;> rfl

/-- A session in which nothing dangles, with its outermost scope. -/
def Tidy (s : Session) : Prop := s.state.Tidy ∧ globalScope < s.state.size

theorem Tidy.run (h : s.Tidy) (limits : Limits) (source : String) :
    (s.run limits source).2.Tidy := by
  rcases run_cases limits source s with ⟨-, -, hrun⟩ | ⟨d, hrun⟩
  · have hplain : ∀ st ∈ statementsOf limits source, st.Plain := fun st hst =>
      plain_of_mem_parse limits.depth hst
    obtain ⟨htidy, hsize⟩ := h.1.runProgram limits hplain h.2
    rw [Tidy, hrun, state_execute]
    exact ⟨htidy, Nat.lt_of_lt_of_le h.2 hsize⟩
  · rw [hrun]
    exact h

/-- **Every session that can come up is tidy.** -/
theorem Reachable.tidy (h : s.Reachable) : s.Tidy := by
  induction h with
  | start colored clock painter => exact ⟨State.tidy_initial clock, Nat.one_pos⟩
  | run limits source _ ih => exact ih.run limits source
  | runScript limits files path _ ih =>
    unfold Session.runScript
    split
    · exact ih
    · split
      · exact ih
      · exact ih.run limits _
  | clear _ ih => exact ih
  | say text _ ih | drained _ ih => exact ⟨⟨ih.1.ordered, ih.1.values, ih.1.plain⟩, ih.2⟩

end Session

/-- **Evaluation touches only what it can reach.** Sessions are tidy, sources
are plain, and evaluation keeps states tidy. In a tidy state and a scope of
it, evaluating a plain expression or executing a plain statement leaves alone
all scopes that it cannot reach from there, however it ends; and whatever can
be reached from what it used, from what it created or from its result, it
could reach itself or it has created. Values that reach no scope in common
stay that way through all calls of them, and no call of one changes anything
that the other can reach. -/
theorem evaluation_confined :
    (∀ session : Session, session.Reachable → session.state.Tidy) ∧
    (∀ limits source, ∀ st ∈ statementsOf limits source, st.Plain) ∧
    ∀ s : State, s.Tidy →
      (∀ rounds depth i, i < s.size →
        (∀ e : Expr, e.Plain →
          (final (evaluate rounds depth e i s)).Tidy ∧
          Confined s i (final (evaluate rounds depth e i s)) ∧
          ∀ v t, evaluate rounds depth e i s = .ok v t →
            ∀ k, t.store.Reached v k → InUse s i t k) ∧
        ∀ st : Stmt, st.Plain →
          (final (execute rounds depth st i s)).Tidy ∧
          Confined s i (final (execute rounds depth st i s)) ∧
          ∀ v t, execute rounds depth st i s = .ok (.returned v) t →
            ∀ k, t.store.Reached v k → InUse s i t k) ∧
      ∀ f g, Apart s f g → ∀ t, Calls f g s t →
        Apart t f g ∧ Unaffected t f g ∧ Unaffected t g f := by
  refine ⟨fun session h => h.tidy.1, fun limits source st hst => plain_of_mem_parse _ hst,
    fun s hs => ⟨fun rounds depth i hi => ⟨fun e he => ?_, fun st hst => ?_⟩, ?_⟩⟩
  · exact ⟨hs.evaluate rounds depth he hi, confined_evaluate rounds depth hs.plain he⟩
  · exact ⟨(hs.execute rounds depth hst hi).1, confined_execute rounds depth hs.plain hst⟩
  · intro f g hfg t hcalls
    obtain ⟨ht, happart⟩ := hcalls.apart hs hfg
    exact ⟨happart, unaffected_of_apart ht happart, unaffected_of_apart ht happart.symm⟩

/-- Two outermost scopes, each with a switch that is off. -/
def switches : State where
  store := ⟨#[⟨[("on", .bool false)], none⟩, ⟨[("on", .bool false)], none⟩]⟩
  code := #[[], [.expression (.assign ⟨.identifier, "on", .nil, 1⟩ (.literal (.bool true)))]]
  output := ""
  clock := { reading := fun _ => 0 }

/-- A function in one of the two scopes, which turns its switch on. -/
def turnOn (i : ScopeId) : Value := .function (.closure 1 "turnOn" [] i)

theorem scope?_switches {i : ScopeId} {scope : Scope} (h : switches.store.scope? i = some scope) :
    scope = ⟨[("on", .bool false)], none⟩ := by
  match i, h with
  | 0, h => exact (Option.some.inj h).symm
  | 1, h => exact (Option.some.inj h).symm

theorem not_links_switches (i k : ScopeId) : ¬ switches.store.Links i k := by
  rintro (⟨hscope, hp⟩ | ⟨hscope, hb, hk⟩)
  · rw [scope?_switches hscope] at hp
    cases hp
  · rw [scope?_switches hscope] at hb
    rw [List.mem_singleton.1 hb] at hk
    cases hk

theorem tidy_switches : switches.Tidy where
  ordered i scope p hscope hp := absurd (.parent hscope hp) (not_links_switches i p)
  values i scope hscope b hb k hk := absurd (.bound hscope hb hk) (not_links_switches i k)
  plain body hbody v hv := by
    simp only [switches, List.mem_cons, List.not_mem_nil, or_false] at hbody
    rcases hbody with rfl | rfl
    · cases hv
    · rw [List.mem_singleton.1 hv]
      rfl

/-- Turning one switch on leaves the other one off. -/
theorem switches_unaffected :
    Apart switches (turnOn 0) (turnOn 1) ∧
      (final (callValue 8 8 ⟨.rightParen, ")", .nil, 1⟩ (turnOn 0) [] switches)).store.get? 0 "on" =
        some (.bool true) ∧
      SameFor (turnOn 1) switches
        (final (callValue 8 8 ⟨.rightParen, ")", .nil, 1⟩ (turnOn 0) [] switches)) := by
  have hreached {i k : ScopeId} (h : switches.store.Reached (turnOn i) k) : i = k := by
    obtain ⟨j, hj, hreach⟩ := h
    cases hj
    rcases hreach.cases_head with rfl | ⟨j, hlink, -⟩
    · rfl
    · exact absurd hlink (not_links_switches _ j)
  have hapart : Apart switches (turnOn 0) (turnOn 1) := by
    refine ⟨fun k hk => ?_, fun k hk => ?_, fun k h₀ h₁ => ?_⟩
    · cases hk
      decide
    · cases hk
      decide
    · cases (hreached h₀).trans (hreached h₁).symm
  obtain ⟨-, -, hall⟩ := evaluation_confined
  obtain ⟨-, hunaffected, -⟩ := (hall switches tidy_switches).2 _ _ hapart _ .start
  exact ⟨hapart, rfl, (hunaffected 8 8 _ [] nofun).1⟩

end Treewalk
