import Treewalk.Proofs.Evaluation.Depth
import Treewalk.Proofs.Evaluation.Overlay
import Treewalk.Proofs.Evaluation.Signals

/-!
# What a `for` means

The parser makes a `for` of blocks and a loop, with a block around body and
step in every round. `For.run` says what the statement means without them:
one scope for the initial clause, and in it condition, body and step in
turn. The two differ in depth, since a block takes a step of its own, and by
the scope that is opened for each round. Nothing is ever bound in it, because
the body of a loop is a statement and no declaration; so the runs differ by
empty scopes only.
-/

namespace Treewalk

open Machine

/-- The clauses of a `for`. -/
structure For where
  initial : Option Stmt
  condition : Option Expr
  step : Option Expr
  body : Stmt

namespace For

/-- The statement that a `for` is read as. -/
def node (f : For) : Stmt := .forLoop f.initial f.condition f.step f.body

/-! ## The loop as it is meant -/

section

variable (rounds : ℕ) (f : For)

/-- Evaluates the condition. Without one the loop goes on. -/
def test (depth : ℕ) (i : ScopeId) : Machine Value :=
  match f.condition with
  | none => pure (.bool true)
  | some e => evaluate rounds depth e i

/-- Evaluates the step, if there is one. -/
def advance (depth : ℕ) (i : ScopeId) : Machine Unit :=
  match f.step with
  | none => pure ()
  | some e => evaluate rounds depth e i >>= fun _ => pure ()

/-- Goes round while the condition holds and the body does not return, with
the step behind the body. -/
def go (depth : ℕ) (i : ScopeId) : ℕ → Machine Completion
  | 0 => throw .endless
  | left + 1 => do
    if (← f.test rounds depth i).truthy then
      match ← execute rounds depth f.body i with
      | .normal => do
        f.advance rounds depth i
        go depth i left
      | .returned v => return .returned v
    else
      return .normal

/-- **What a `for` means**: the initial clause in a scope of its own, and the
loop in that scope. -/
def run (depth : ℕ) (i : ScopeId) : Machine Completion :=
  match f.initial with
  | none => f.go rounds depth i rounds
  | some s => do
    let inner ← openScope i
    let _ ← execute rounds depth s inner
    f.go rounds depth inner rounds

/-- One round, without the test. -/
def turn (depth : ℕ) (i : ScopeId) : Machine Completion := do
  match ← execute rounds depth f.body i with
  | .normal => do
    f.advance rounds depth i
    return .normal
  | .returned v => return .returned v

theorem go_eq_repeatWhile (depth : ℕ) (i : ScopeId) (left : ℕ) :
    f.go rounds depth i left =
      repeatWhile (f.test rounds depth i) (f.turn rounds depth i) left := by
  induction left with
  | zero => rfl
  | succ left ih =>
    rw [go, repeatWhile, turn]
    refine bind_congr fun v => ?_
    split
    · rw [bind_assoc]
      refine bind_congr fun completion => ?_
      cases completion with
      | normal => simp only [bind_assoc, pure_bind, ih, turn]
      | returned v => rfl
    · rfl

/-! ## The loop as it is read -/

/-- The depths that the parts of a loop are given. -/
structure Depths where
  initial : ℕ
  test : ℕ
  body : ℕ
  step : ℕ

/-- One round: with a step, body and step have a scope of their own. -/
def round (d : Depths) (i : ScopeId) : Machine Completion :=
  match f.step with
  | none => execute rounds d.body f.body i
  | some e => do
    let inner ← openScope i
    match ← execute rounds d.body f.body inner with
    | .normal => do
      let _ ← evaluate rounds d.step e inner
      return .normal
    | .returned v => return .returned v

/-- The loop of all rounds. -/
def nestedLoop (d : Depths) (i : ScopeId) : Machine Completion :=
  repeatWhile (f.test rounds d.test i) (f.round rounds d i) rounds

/-- The loop behind its initial clause. -/
def nested (d : Depths) (i : ScopeId) : Machine Completion :=
  match f.initial with
  | none => f.nestedLoop rounds d i
  | some s => do
    let inner ← openScope i
    let _ ← execute rounds d.initial s inner
    f.nestedLoop rounds d inner

end

/-- All parts are given a depth between two bounds. -/
structure Depths.Within (low high : ℕ) (d : Depths) : Prop where
  initial : low ≤ d.initial ∧ d.initial ≤ high
  test : low ≤ d.test ∧ d.test ≤ high
  body : low ≤ d.body ∧ d.body ≤ high
  step : low ≤ d.step ∧ d.step ≤ high

/-- Each part is given the same depth. -/
def Depths.all (depth : ℕ) : Depths := ⟨depth, depth, depth, depth⟩

/-- Each part is given at most the depth it has in `d'`. -/
structure Depths.Le (d d' : Depths) : Prop where
  initial : d.initial ≤ d'.initial
  test : d.test ≤ d'.test
  body : d.body ≤ d'.body
  step : d.step ≤ d'.step

variable {f : For} {rounds : ℕ}

theorem executeAll_singleton (execute : Stmt → Machine Completion) (s : Stmt) :
    executeAll execute [s] = execute s := by
  rw [executeAll]
  conv_rhs => rw [← bind_pure (execute s)]
  refine bind_congr fun completion => ?_
  cases completion <;> rfl

/-- A loop that is read from a `for` is a loop of rounds. -/
theorem execute_loop (rounds : ℕ) (f : For) (depth : ℕ) :
    ∃ d : Depths, d.Within depth (depth + 3) ∧ d.initial = depth + 3 ∧ ∀ i,
      execute rounds (depth + 3)
        (.loop (f.condition.getD (.literal (.bool true)))
          (match f.step with
            | some step => .block [f.body, .expression step]
            | none => f.body)) i = f.nestedLoop rounds d i := by
  obtain ⟨initial, condition, step, body⟩ := f
  have htest (i : ScopeId) : evaluate rounds (depth + 2)
      (condition.getD (.literal (.bool true))) i =
        test rounds ⟨initial, condition, step, body⟩ (depth + 2) i := by
    cases condition <;> rfl
  cases step with
  | none =>
    refine ⟨⟨depth + 3, depth + 2, depth + 2, depth⟩, ?_, rfl, fun i => ?_⟩
    · constructor <;> constructor <;> dsimp only <;> omega
    · change repeatWhile (evaluate rounds (depth + 2) _ i) _ rounds = _
      rw [htest]
      rfl
  | some e =>
    refine ⟨⟨depth + 3, depth + 2, depth + 1, depth⟩, ?_, rfl, fun i => ?_⟩
    · constructor <;> constructor <;> dsimp only <;> omega
    have hround : execute rounds (depth + 2) (.block [body, .expression e]) i =
        round rounds ⟨initial, condition, some e, body⟩
          ⟨depth + 3, depth + 2, depth + 1, depth⟩ i := by
      change openScope i >>= _ = openScope i >>= _
      refine bind_congr fun inner => bind_congr fun completion => ?_
      cases completion with
      | normal => exact executeAll_singleton _ _
      | returned v => rfl
    change repeatWhile (evaluate rounds (depth + 2) _ i) _ rounds = _
    rw [htest]
    exact congrArg (repeatWhile _ · rounds) hround

/-- **What a `for` is read as**, four steps deeper than the deepest of its
parts. -/
theorem execute_node (hinitial : ∀ s ∈ f.initial, ∀ depth i, Silent (execute rounds depth s i))
    (depth : ℕ) : ∃ d : Depths, d.Within depth (depth + 4) ∧ ∀ i,
      execute rounds (depth + 4) f.node i = f.nested rounds d i := by
  obtain ⟨initial, condition, step, body⟩ := f
  cases initial with
  | none =>
    obtain ⟨d, hd, -, hloop⟩ := execute_loop rounds ⟨none, condition, step, body⟩ (depth + 1)
    refine ⟨d, ?_, hloop⟩
    obtain ⟨h₁, h₂, h₃, h₄⟩ := hd
    constructor <;> constructor <;> omega
  | some s =>
    obtain ⟨d, hd, hdepth, hloop⟩ := execute_loop rounds ⟨some s, condition, step, body⟩ depth
    refine ⟨d, ?_, fun i => ?_⟩
    · obtain ⟨h₁, h₂, h₃, h₄⟩ := hd
      constructor <;> constructor <;> omega
    · rw [nested]
      change openScope i >>= _ = _
      refine bind_congr fun inner => ?_
      rw [executeAll, (hinitial s rfl _ inner).bind_eq, hdepth]
      refine bind_congr fun _ => ?_
      rw [executeAll_singleton]
      exact hloop inner

/-! ## Depth -/

theorem cut_test {depth depth' : ℕ} (h : depth ≤ depth') (i : ScopeId) :
    Cut Eq (f.test rounds depth i) (f.test rounds depth' i) := by
  unfold test
  split
  · exact cut_pure rfl
  · exact (cut_evaluate_execute rounds h).1 _ i

theorem cut_round {d d' : Depths} (h : d.Le d') (i : ScopeId) :
    Cut Eq (f.round rounds d i) (f.round rounds d' i) := by
  unfold round
  split
  · exact (cut_evaluate_execute rounds h.body).2 _ i
  · refine (cut_openScope i).bindEq fun inner =>
      ((cut_evaluate_execute rounds h.body).2 _ inner).bindEq fun completion => ?_
    cases completion with
    | normal =>
      exact ((cut_evaluate_execute rounds h.step).1 _ inner).bindEq fun _ => cut_pure rfl
    | returned v => exact cut_pure rfl

/-- Less depth for the parts can only cut the loop short. -/
theorem cut_nested {d d' : Depths} (h : d.Le d') (i : ScopeId) :
    Cut Eq (f.nested rounds d i) (f.nested rounds d' i) := by
  have hloop (i : ScopeId) : Cut Eq (f.nestedLoop rounds d i) (f.nestedLoop rounds d' i) :=
    cut_repeatWhile (cut_test h.test i) (cut_round h i) rounds
  unfold nested
  split
  · exact hloop i
  · exact (cut_openScope i).bindEq fun inner =>
      ((cut_evaluate_execute rounds h.initial).2 _ inner).bindEq fun _ => hloop inner

/-! ## Scopes -/

/-- Clauses that hold no function as a literal, with a body that declares
nothing, and an initial clause that does not return. -/
structure Plain (f : For) : Prop where
  initial : ∀ s ∈ f.initial, s.Plain
  condition : ∀ e ∈ f.condition, e.Plain
  step : ∀ e ∈ f.step, e.Plain
  body : f.body.Plain
  declared : f.body.declared = []
  silent : ∀ s ∈ f.initial, ∀ rounds depth i, Silent (execute rounds depth s i)

section

open Overlay

variable {w : Overlay} {i i' : ScopeId} (hf : f.Plain) (depth : ℕ)
include hf

theorem steps_test (hi : w.Sees i i') :
    w.Steps Values (f.test rounds depth i) (f.test rounds depth i') := by
  have hcondition := hf.condition
  unfold test
  split
  · exact steps_pure fun _ _ => .plain rfl
  · rename_i e he
    exact (steps_evaluate_execute rounds depth).1 e (hcondition e he) w i i' hi

theorem steps_body (hi : w.Sees i i') :
    w.Steps Completions (execute rounds depth f.body i) (execute rounds depth f.body i') :=
  (steps_evaluate_execute rounds depth).2 f.body hf.body w i i' hi fun h => absurd hf.declared h

/-- **A round with a scope of its own is a round without.** -/
theorem steps_round (hi : w.Sees i i') :
    w.Steps Completions (f.round rounds (.all depth) i) (f.turn rounds depth i') := by
  have hstep := hf.step
  unfold round turn advance
  generalize f.step = step at hstep
  cases step with
  | none =>
    have hdone : execute rounds depth f.body i =
        execute rounds depth f.body i >>= fun completion => pure completion :=
      (bind_pure _).symm
    rw [Depths.all, hdone]
    refine (steps_body hf depth hi).bind fun w₁ c c' _ hc => ?_
    cases hc with
    | normal => exact steps_pure fun _ _ => .normal
    | returned hv => exact steps_pure fun _ hle => .returned (values_mono hle hv)
  | some e =>
    -- the blank in front of scope `i` sees what `i` sees
    refine steps_insert hi fun w₁ n _ hn => ?_
    refine (steps_body hf depth hn).bind fun w₂ c c' hle₂ hc => ?_
    cases hc with
    | normal =>
      have he := (steps_evaluate_execute rounds depth).1 e (hstep e rfl) w₂ n i' (hn.mono hle₂)
      simp only [bind_assoc, pure_bind]
      exact he.bind fun _ _ _ _ _ => steps_pure fun _ _ => .normal
    | returned hv => exact steps_pure fun _ hle => .returned (values_mono hle hv)

theorem steps_loop (hi : w.Sees i i') :
    w.Steps Completions (f.nestedLoop rounds (.all depth) i) (f.go rounds depth i' rounds) := by
  rw [go_eq_repeatWhile]
  exact lawful_walk.repeatWhile (steps_test hf depth hi) (steps_round hf depth hi) rounds

theorem steps_nested (hi : w.Sees i i') :
    w.Steps Completions (f.nested rounds (.all depth) i) (f.run rounds depth i') := by
  have hinitial := hf.initial
  unfold nested run
  split
  · exact steps_loop hf depth hi
  · rename_i s hs
    refine (steps_openScope hi).bind fun w₁ n n' _ hn => ?_
    refine ((steps_evaluate_execute rounds depth).2 s (hinitial s hs) w₁ n n' (.here hn)
      fun _ => hn).bind fun w₂ _ _ hle₂ _ => ?_
    exact steps_loop hf depth (.here (hle₂.1 _ _ hn))

end

/-! ## Runs of both -/

/-- Results that agree, for two runs from state `s`: they end the same way,
with the same text printed, and every scope of `s` binds the same names to
the same values, up to scopes that were opened on the way. -/
abbrev SameRun (s : State) (r r' : EStateM.Result Stop State Completion) : Prop :=
  (Overlay.identity s).Ends Overlay.Completions r r'

theorem SameRun.overflows {s : State} {r r' : EStateM.Result Stop State Completion}
    (h : SameRun s r r') (hr : Overflows r) : Overflows r' := by
  obtain ⟨t, rfl⟩ := hr
  cases h with
  | error _ _ => exact ⟨_, rfl⟩

section

variable {s : State} {i : ScopeId} {d d' : ℕ}

/-- With the same depth for all parts, the loop as it is read runs like the
loop as it is meant. -/
theorem sameRun_nested (hf : f.Plain) (hs : s.Tidy) (hi : i < s.size) (depth : ℕ) :
    SameRun s (f.nested rounds (.all depth) i s) (f.run rounds depth i s) :=
  steps_nested (w := Overlay.identity s) hf depth (.here ⟨rfl, hi⟩) _ s s (le_refl _)
    (Overlay.states_identity hs)

/-- A loop that gets through as it is meant gets through as it is read. -/
theorem sameRun_of_run (hf : f.Plain) (hs : s.Tidy) (hi : i < s.size) (h : d + 4 ≤ d')
    (hrun : ¬ Overflows (f.run rounds d i s)) :
    SameRun s (execute rounds d' f.node i s) (f.run rounds d i s) := by
  obtain ⟨depths, hdepths, hnode⟩ := execute_node (fun s hs => hf.silent s hs rounds) d
  have hsame : SameRun s (f.nested rounds (.all d) i s) (f.run rounds d i s) :=
    sameRun_nested hf hs hi d
  have hle : (Depths.all d).Le depths :=
    ⟨hdepths.initial.1, hdepths.test.1, hdepths.body.1, hdepths.step.1⟩
  have hnested : execute rounds (d + 4) f.node i s = f.nested rounds (.all d) i s := by
    rw [hnode]
    exact (cut_nested hle i).eq fun ho => hrun (hsame.overflows ho)
  have hdeeper : execute rounds d' f.node i s = execute rounds (d + 4) f.node i s :=
    ((cut_evaluate_execute rounds h).2 f.node i).eq fun ho =>
      hrun (hsame.overflows (hnested ▸ ho))
  rw [hdeeper, hnested]
  exact hsame

/-- A loop that gets through as it is read gets through as it is meant. -/
theorem sameRun_of_execute (hf : f.Plain) (hs : s.Tidy) (hi : i < s.size) (h : d + 4 ≤ d')
    (hrun : ¬ Overflows (execute rounds d f.node i s)) :
    SameRun s (execute rounds d f.node i s) (f.run rounds d' i s) := by
  obtain ⟨depths, hdepths, hnode⟩ := execute_node (fun s hs => hf.silent s hs rounds) d
  have hle : depths.Le (.all d') :=
    ⟨Nat.le_trans hdepths.initial.2 h, Nat.le_trans hdepths.test.2 h,
      Nat.le_trans hdepths.body.2 h, Nat.le_trans hdepths.step.2 h⟩
  have hdeeper : f.nested rounds depths i s = execute rounds d f.node i s := by
    rw [← hnode]
    exact ((cut_evaluate_execute rounds (Nat.le_add_right d 4)).2 f.node i).eq hrun
  have hnested : f.nested rounds (.all d') i s = f.nested rounds depths i s :=
    (cut_nested hle i).eq (hdeeper ▸ hrun)
  rw [← hdeeper, ← hnested]
  exact sameRun_nested hf hs hi d'

end

end For

end Treewalk
