import Treewalk.Proofs.Grammar.Building
import Treewalk.Tree.Dump
import Mathlib.Order.Nat

/-!
# Trees that can be dumped

A tree has no dump where a part is missing or out of place, or where it is
nested deeper than allowed. The reader leaves no part out, also in the trees
it keeps between faults; so **every tree that is read can be dumped** with as
much depth as it is high.
-/

namespace Treewalk

mutual

/-- The number of levels of an expression. -/
def Expr.height : Expr → ℕ
  | .literal _ => 1
  | .grouping e => e.height + 1
  | .unary _ e => e.height + 1
  | .binary l _ r => max l.height r.height + 1
  | .logical l _ r => max l.height r.height + 1
  | .name _ => 1
  | .assign _ e => e.height + 1
  | .call f _ es => max f.height (Expr.heightAll es) + 1
  | .missing => 1
  | .unknown => 1
  | .stray s => s.height + 1

/-- The number of levels of the highest of some expressions. -/
def Expr.heightAll : List Expr → ℕ
  | [] => 0
  | e :: es => max e.height (Expr.heightAll es)

/-- The number of levels of a statement. -/
def Stmt.height : Stmt → ℕ
  | .expression e => e.height + 1
  | .print e => e.height + 1
  | .var _ none => 1
  | .var _ (some e) => e.height + 1
  | .block ss => Stmt.heightAll ss + 1
  | .branch e y none => max e.height y.height + 1
  | .branch e y (some n) => max e.height (max y.height n.height) + 1
  | .loop e s => max e.height s.height + 1
  | .function _ _ ss => Stmt.heightAll ss + 1
  | .ret _ none => 1
  | .ret _ (some e) => e.height + 1
  | .missing => 1
  | .unknown => 1
  | .stray e => e.height + 1

/-- The number of levels of the highest of some statements. -/
def Stmt.heightAll : List Stmt → ℕ
  | [] => 0
  | s :: ss => max s.height (Stmt.heightAll ss)

end

theorem Expr.height_le_heightAll {e : Expr} {es : List Expr} (h : e ∈ es) :
    e.height ≤ Expr.heightAll es := by
  induction h with
  | head es => exact Nat.le_max_left _ _
  | tail e' _ ih => exact Nat.le_trans ih (Nat.le_max_right _ _)

theorem Stmt.height_le_heightAll {s : Stmt} {ss : List Stmt} (h : s ∈ ss) :
    s.height ≤ Stmt.heightAll ss := by
  induction h with
  | head ss => exact Nat.le_max_left _ _
  | tail s' _ ih => exact Nat.le_trans ih (Nat.le_max_right _ _)

/-- Expressions that can be dumped, and that are no statements. -/
def Expr.Dumpable (e : Expr) : Prop :=
  (∀ s, e ≠ .stray s) ∧ ∀ depth, e.height ≤ depth → ∃ text, e.dump depth = .ok text

/-- Statements that can be dumped. -/
def Stmt.Dumpable (s : Stmt) : Prop :=
  ∀ depth, s.height ≤ depth → ∃ text, s.dump depth = .ok text

/-- A level takes one of the allowed depth. -/
theorem of_level {height : ℕ} {P : ℕ → Prop} (h : ∀ depth, height ≤ depth → P (depth + 1)) :
    ∀ depth, height + 1 ≤ depth → P depth := by
  intro depth hdepth
  obtain ⟨depth, rfl⟩ : ∃ d, depth = d + 1 := ⟨depth - 1, by omega⟩
  exact h depth (Nat.le_of_succ_le_succ hdepth)

theorem exists_mapM_ok {α β ε : Type} {f : α → Except ε β} {xs : List α}
    (h : ∀ x ∈ xs, ∃ y, f x = .ok y) : ∃ ys, xs.mapM f = .ok ys := by
  induction xs with
  | nil => exact ⟨[], rfl⟩
  | cons x xs ih =>
    obtain ⟨⟨y, hy⟩, hxs⟩ := List.forall_mem_cons.1 h
    obtain ⟨ys, hys⟩ := ih hxs
    refine ⟨y :: ys, ?_⟩
    rw [List.mapM_cons, hy, hys]
    rfl

/-- Only a statement is no callee. -/
theorem Expr.dump_call {f : Expr} (hf : ∀ s, f ≠ .stray s) (paren : Token) (es : List Expr)
    (depth : ℕ) : (Expr.call f paren es).dump (depth + 1) = do
      let form ← f.dump depth
      return enclosed form (← es.mapM fun e => e.dump depth) := by
  rw [Expr.dump]
  exact hf

theorem dumps_all {ss : List Stmt} (h : ∀ s ∈ ss, s.Dumpable) {depth : ℕ}
    (hdepth : Stmt.heightAll ss ≤ depth) : ∃ texts, (ss.mapM fun s => s.dump depth) = .ok texts :=
  exists_mapM_ok fun s hs => h s hs depth ((Stmt.height_le_heightAll hs).trans hdepth)

namespace Reading

/-- **The forms that the reader builds can be dumped** if their parts can. -/
theorem builds_dumpable :
    Builds (fun _ => True) Expr.Dumpable Stmt.Dumpable Stmt.Dumpable where
  bool b := ⟨nofun, of_level fun _ _ => ⟨_, by rw [Expr.dump]; rfl⟩⟩
  nil := ⟨nofun, of_level fun _ _ => ⟨_, by rw [Expr.dump]; rfl⟩⟩
  literal _ := ⟨nofun, of_level fun _ _ => ⟨_, by rw [Expr.dump]; rfl⟩⟩
  name t := ⟨nofun, of_level fun _ _ => ⟨_, by rw [Expr.dump]; rfl⟩⟩
  grouping he := ⟨nofun, of_level fun depth hdepth => by
    obtain ⟨text, htext⟩ := he.2 depth hdepth
    exact ⟨_, by rw [Expr.dump, htext]; rfl⟩⟩
  unary o he := ⟨nofun, of_level fun depth hdepth => by
    obtain ⟨text, htext⟩ := he.2 depth hdepth
    exact ⟨_, by rw [Expr.dump, htext]; rfl⟩⟩
  binary o hl hr := ⟨nofun, of_level fun depth hdepth => by
    obtain ⟨left, hleft⟩ := hl.2 depth (by omega)
    obtain ⟨right, hright⟩ := hr.2 depth (by omega)
    exact ⟨_, by rw [Expr.dump, hleft, hright]; rfl⟩⟩
  logical o hl hr := ⟨nofun, of_level fun depth hdepth => by
    obtain ⟨left, hleft⟩ := hl.2 depth (by omega)
    obtain ⟨right, hright⟩ := hr.2 depth (by omega)
    exact ⟨_, by rw [Expr.dump, hleft, hright]; rfl⟩⟩
  assign t he := ⟨nofun, of_level fun depth hdepth => by
    obtain ⟨text, htext⟩ := he.2 depth hdepth
    exact ⟨_, by rw [Expr.dump, htext]; rfl⟩⟩
  call {f es} paren hf hes := ⟨nofun, of_level fun depth hdepth => by
    obtain ⟨form, hform⟩ := hf.2 depth (by omega)
    have hall : ∀ e ∈ es, ∃ text, e.dump depth = .ok text := fun e he => by
      have hle : e.height ≤ Expr.heightAll es := Expr.height_le_heightAll he
      exact (hes e he).2 depth (by omega)
    obtain ⟨texts, htexts⟩ := exists_mapM_ok hall
    exact ⟨_, by rw [Expr.dump_call hf.1, hform, htexts]; rfl⟩⟩
  var {e?} t he := by
    cases e? with
    | none => exact of_level fun _ _ => ⟨_, by rw [Stmt.dump]; rfl⟩
    | some e =>
      refine of_level fun depth hdepth => ?_
      obtain ⟨text, htext⟩ := (he e rfl).2 depth hdepth
      exact ⟨_, by rw [Stmt.dump, htext]; rfl⟩
  function t params hss := of_level fun depth hdepth => by
    obtain ⟨texts, htexts⟩ := dumps_all hss hdepth
    exact ⟨_, by rw [Stmt.dump, htexts]; rfl⟩
  statement hs := hs
  expression he := of_level fun depth hdepth => by
    obtain ⟨text, htext⟩ := he.2 depth hdepth
    exact ⟨_, by rw [Stmt.dump, htext]; rfl⟩
  print he := of_level fun depth hdepth => by
    obtain ⟨text, htext⟩ := he.2 depth hdepth
    exact ⟨_, by rw [Stmt.dump, htext]; rfl⟩
  block hss := of_level fun depth hdepth => by
    obtain ⟨texts, htexts⟩ := dumps_all hss hdepth
    exact ⟨_, by rw [Stmt.dump, htexts]; rfl⟩
  branch {e y n?} he hy hn := by
    cases n? with
    | none =>
      refine of_level fun depth hdepth => ?_
      obtain ⟨test, htest⟩ := he.2 depth (by omega)
      obtain ⟨yes, hyes⟩ := hy depth (by omega)
      exact ⟨_, by rw [Stmt.dump, htest, hyes]; rfl⟩
    | some n =>
      refine of_level fun depth hdepth => ?_
      obtain ⟨test, htest⟩ := he.2 depth (by omega)
      obtain ⟨yes, hyes⟩ := hy depth (by omega)
      obtain ⟨no, hno⟩ := hn n rfl depth (by omega)
      exact ⟨_, by rw [Stmt.dump, htest, hyes, hno]; rfl⟩
  loop he hs := of_level fun depth hdepth => by
    obtain ⟨test, htest⟩ := he.2 depth (by omega)
    obtain ⟨body, hbody⟩ := hs depth (by omega)
    exact ⟨_, by rw [Stmt.dump, htest, hbody]; rfl⟩
  ret {e?} k he := by
    cases e? with
    | none => exact of_level fun _ _ => ⟨_, by rw [Stmt.dump]; rfl⟩
    | some e =>
      refine of_level fun depth hdepth => ?_
      obtain ⟨text, htext⟩ := (he e rfl).2 depth hdepth
      exact ⟨_, by rw [Stmt.dump, htext]; rfl⟩

end Reading

/-- **Every statement that is read can be dumped**, whatever else is wrong with
its tokens. -/
theorem dumpable_of_mem_parse {depth : ℕ} {tokens : List Token} {s : Stmt}
    (h : s ∈ (parse depth tokens).statements) : s.Dumpable :=
  Reading.builds_dumpable.readAll (fun _ _ => trivial) depth s h

end Treewalk
