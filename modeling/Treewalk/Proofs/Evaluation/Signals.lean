import Treewalk.Evaluation
import Treewalk.Proofs.Grammar.Returns

/-!
# Signals of returns

A `return` completes a statement with a value, and only a call takes that
value. A statement with no `return` outside functions never completes so.
Since the parser refuses every other program, no statement of an accepted
program returns, and running a program to its end discards nothing.
-/

namespace Treewalk

open scoped List
open Machine

/-! ## Statements that never return -/

/-- A step that never completes with a `return`. -/
def Silent (m : Machine Completion) : Prop := ∀ s v s', m s ≠ .ok (.returned v) s'

theorem silent_normal : Silent (pure .normal) := fun _ _ _ => nofun

theorem silent_throw (e : Stop) : Silent (throw e) := fun _ _ _ => nofun

theorem silent_bind {α : Type} {m : Machine α} {k : α → Machine Completion}
    (hk : ∀ a, Silent (k a)) : Silent (m >>= k) := by
  intro s v s' hrun
  change EStateM.bind m k s = _ at hrun
  unfold EStateM.bind at hrun
  split at hrun
  · exact hk _ _ _ _ hrun
  · cases hrun

/-- A step that never returns is one that completes normally. -/
theorem Silent.bind_eq {α : Type} {m : Machine Completion} {k : Completion → Machine α}
    (hm : Silent m) : m >>= k = m >>= fun _ => k .normal := by
  funext s
  change EStateM.bind m k s = EStateM.bind m _ s
  unfold EStateM.bind
  cases hrun : m s with
  | error e s' => rfl
  | ok completion s' =>
    cases completion with
    | normal => rfl
    | returned v => exact absurd hrun (hm s v s')

theorem silent_executeAll {execute : Stmt → Machine Completion} {ss : List Stmt}
    (h : ∀ s ∈ ss, Silent (execute s)) : Silent (executeAll execute ss) := by
  induction ss with
  | nil => exact silent_normal
  | cons s ss ih =>
    obtain ⟨hs, hss⟩ := List.forall_mem_cons.1 h
    rw [executeAll, hs.bind_eq]
    exact silent_bind fun _ => ih hss

theorem silent_repeatWhile {test : Machine Value} {body : Machine Completion} (h : Silent body)
    (rounds : Nat) : Silent (repeatWhile test body rounds) := by
  induction rounds with
  | zero => exact silent_throw _
  | succ rounds ih =>
    refine silent_bind fun v => ?_
    split
    · rw [h.bind_eq]
      exact silent_bind fun _ => ih
    · exact silent_normal

/-- **A statement with no `return` outside functions never returns**, in
whatever scope and state it is run. -/
theorem silent_execute (rounds depth : Nat) {s : Stmt} (h : s.returns = []) (i : ScopeId) :
    Silent (execute rounds depth s i) := by
  induction depth generalizing s i with
  | zero => exact silent_throw _
  | succ depth ih =>
    rcases s with e | e | ⟨t, _ | e⟩ | ss | ⟨e, y, _ | no⟩ | ⟨e, b⟩ | ⟨t, ps, ss⟩ | ⟨k, e?⟩ | _ | _ | _
    · exact silent_bind fun _ => silent_normal
    · exact silent_bind fun _ => silent_bind fun _ => silent_normal
    · exact silent_bind fun _ => silent_normal
    · exact silent_bind fun _ => silent_bind fun _ => silent_normal
    · rw [Stmt.returns, Stmt.returnsAll_eq_flatMap, List.flatMap_eq_nil_iff] at h
      exact silent_bind fun inner => silent_executeAll fun s hs => ih (h s hs) inner
    · obtain ⟨-, hy⟩ := List.append_eq_nil_iff.1 h
      refine silent_bind fun v => ?_
      split
      · exact ih hy i
      · exact silent_normal
    · obtain ⟨-, h⟩ := List.append_eq_nil_iff.1 h
      obtain ⟨hy, hno⟩ := List.append_eq_nil_iff.1 h
      refine silent_bind fun v => ?_
      split
      · exact ih hy i
      · exact ih hno i
    · obtain ⟨-, hb⟩ := List.append_eq_nil_iff.1 h
      exact silent_repeatWhile (ih hb i) rounds
    · exact silent_bind fun _ => silent_normal
    · -- a `return` has its own keyword
      cases e? <;> cases h
    · exact silent_throw _
    · exact silent_throw _
    · exact silent_throw _

/-- Where no statement returns, executing all of them in order is running
the program. -/
theorem executeAll_eq_runProgram (limits : Limits) {program : List Stmt}
    (h : ∀ st ∈ program, Silent (execute limits.rounds limits.depth st globalScope)) :
    executeAll (fun st => execute limits.rounds limits.depth st globalScope) program =
      runProgram limits program >>= fun _ => pure .normal := by
  induction program with
  | nil => rfl
  | cons st program ih =>
    obtain ⟨hst, hprogram⟩ := List.forall_mem_cons.1 h
    have hcons : runProgram limits (st :: program) =
        execute limits.rounds limits.depth st globalScope >>= fun _ => runProgram limits program :=
      rfl
    rw [executeAll, hst.bind_eq, ih hprogram, hcons, bind_assoc]

/-! ## Programs -/

/-- Every `return` outside functions has an error of its own, at its keyword
and in its place among the errors. -/
theorem returns_sublist_errors (depth : Nat) (tokens : List Token) :
    ((parse depth tokens).statements.flatMap Stmt.returns).map
        (.atToken · "Can't return from top-level code.") <+
      (parse depth tokens).errors.toList := by
  rw [parse_eq, Parsed.errors, Array.toList_map]
  exact ((Reading.returns_readAll_sublist depth tokens).map _).trans
    (sublist_errors_of_reported _)

theorem returns_eq_nil_of_errors {depth : Nat} {tokens : List Token}
    (h : (parse depth tokens).errors = #[]) : ∀ st ∈ (parse depth tokens).statements,
      st.returns = [] := by
  have hsublist := returns_sublist_errors depth tokens
  rw [h, List.sublist_nil, List.map_eq_nil_iff, List.flatMap_eq_nil_iff] at hsublist
  exact hsublist

/-- **A return never reaches the top level.** The `return`s that parsing
leaves outside of functions have their errors, one each, in order. However
the reading of a declaration ends, as many function bodies are open as before
it; so none is open between the declarations of a program, from the first to
the last. Hence, if there are no errors, no statement ever completes with a
`return`, whatever state it is run in, and running the program is executing
its statements with nothing discarded. -/
theorem returns_never_escape (depth : Nat) (tokens : List Token) :
    ((parse depth tokens).statements.flatMap Stmt.returns).map
        (.atToken · "Can't return from top-level code.") <+
      (parse depth tokens).errors.toList ∧
    (∀ room d c, (Reading.declaration room d c).2.openFunctions = c.openFunctions) ∧
    Reading.Between depth tokens (Reading.readAll depth tokens).2 ∧
    (∀ c, Reading.Between depth tokens c → c.openFunctions = 0) ∧
    ((parse depth tokens).errors = #[] →
      (∀ st ∈ (parse depth tokens).statements, ∀ rounds d i s v s',
        execute rounds d st i s ≠ .ok (.returned v) s') ∧
      ∀ limits s, executeAll (fun st => execute limits.rounds limits.depth st globalScope)
          (parse depth tokens).statements s =
        (runProgram limits (parse depth tokens).statements >>= fun _ => pure .normal) s) := by
  refine ⟨returns_sublist_errors depth tokens, Reading.openFunctions_declaration,
    Reading.between_readAll depth _, fun c hc => hc.openFunctions, fun hvalid => ?_⟩
  have hreturns := returns_eq_nil_of_errors hvalid
  have hsilent : ∀ st ∈ (parse depth tokens).statements, ∀ rounds d i,
      Silent (execute rounds d st i) := fun st hst rounds d i =>
    silent_execute rounds d (hreturns st hst) i
  refine ⟨fun st hst rounds d i => hsilent st hst rounds d i, fun limits s => ?_⟩
  rw [executeAll_eq_runProgram limits fun st hst => hsilent st hst _ _ _]

end Treewalk
