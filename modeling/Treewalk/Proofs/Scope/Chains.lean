import Treewalk.Evaluation.Machine
import Treewalk.Proofs.Scope.Store
import Treewalk.Proofs.Tree.Contents
import Mathlib.Data.List.Chain

/-!
# Chains of scopes

In a well-formed store one scope is outermost, every other one lies in a
scope created before it, and no function dangles. So whoever goes outward
from a scope, parent by parent, gets to the outermost scope after finitely
many steps; and the search for a name, which goes outward until it finds the
name or there is no parent, comes to an end. Both are stated here as
relations that know of no bound, and are shown to be what the bounded
functions of the store compute.
-/

namespace Treewalk

namespace Store

/-- A store in which every scope lies, at some remove, in the outermost one,
and in which every bound function was declared in a scope that exists. -/
structure WellFormed (s : Store) : Prop where
  /-- The outermost scope lies in no other one and binds the clock. -/
  root : ∃ scope, s.scope? globalScope = some scope ∧ scope.parent = none ∧
    scope.binds "clock" = true
  /-- Every other scope lies in one that was created before it. -/
  enclosed : ∀ i scope, s.scope? i = some scope → i ≠ globalScope →
    ∃ p < i, scope.parent = some p
  closures : ∀ i scope, s.scope? i = some scope → ∀ b ∈ scope.bindings, ∀ k,
    b.2.scope? = some k → k < s.scopes.size

/-- The way outward from a scope: parent by parent, up to a scope that has no
parent. -/
inductive Outward (s : Store) : ScopeId → List ScopeId → Prop
  | last {i : ScopeId} {scope : Scope} : s.scope? i = some scope → scope.parent = none →
      Outward s i [i]
  | step {i p : ScopeId} {scope : Scope} {path : List ScopeId} : s.scope? i = some scope →
      scope.parent = some p → Outward s p path → Outward s i (i :: path)

/-- The search for a name: it looks at a scope, and goes on with its parent if
the name is not bound there. The result is the scope that binds the name, or
nothing once there is no parent to go on with. -/
inductive Search (s : Store) (x : String) : Option ScopeId → Option ScopeId → Prop
  | nowhere : Search s x none none
  | here {i : ScopeId} {scope : Scope} : s.scope? i = some scope → scope.binds x = true →
      Search s x (some i) (some i)
  | outward {i : ScopeId} {scope : Scope} {r : Option ScopeId} : s.scope? i = some scope →
      scope.binds x = false → Search s x scope.parent r → Search s x (some i) r

variable {s : Store} {i : ScopeId} {x : String}

/-! ## Where the relations lead -/

theorem Outward.head? {path : List ScopeId} (h : s.Outward i path) : path.head? = some i := by
  cases h <;> rfl

/-- The chain of a scope, parent by parent. -/
theorem Ordered.chain_eq (h : s.Ordered) {scope : Scope} (hscope : s.scope? i = some scope) :
    s.chain i = i :: (scope.parent.map s.chain).getD [] := by
  rw [chain, chainWithin, hscope]
  cases hp : scope.parent with
  | none => simp only [hp, Option.map_none, Option.getD_none]
  | some p =>
    simp only [hp, Option.map_some, Option.getD_some, h.chainWithin_eq (h i scope p hscope hp)]

namespace WellFormed

theorem ordered (h : s.WellFormed) : s.Ordered := by
  intro i scope p hscope hp
  by_cases hi : i = globalScope
  · obtain ⟨root, hroot, hnone, -⟩ := h.root
    rw [hi, hroot] at hscope
    cases hscope
    rw [hnone] at hp
    cases hp
  · obtain ⟨q, hlt, hq⟩ := h.enclosed i scope hscope hi
    rw [hq] at hp
    cases hp
    exact hlt

/-- **Every chain is the whole way outward**, each scope on it was created
before the one in front, and the last one is the outermost scope. -/
theorem outward_chain (h : s.WellFormed) (hi : i < s.scopes.size) :
    s.Outward i (s.chain i) ∧ (s.chain i).IsChain (· > ·) ∧
      (s.chain i).getLast? = some globalScope := by
  -- parents have smaller numbers
  induction i using Nat.strongRecOn with
  | ind i ih =>
    obtain ⟨scope, hscope⟩ := exists_scope hi
    rw [h.ordered.chain_eq hscope]
    by_cases hroot : i = globalScope
    · obtain ⟨root, hglobal, hnone, -⟩ := h.root
      rw [hroot, hglobal] at hscope
      cases hscope
      rw [hroot, hnone]
      exact ⟨.last hglobal hnone, .singleton _, rfl⟩
    · obtain ⟨p, hlt, hp⟩ := h.enclosed i scope hscope hroot
      obtain ⟨hpath, hdown, hlast⟩ := ih p hlt (Nat.lt_trans hlt hi)
      rw [hp]
      refine ⟨.step hscope hp hpath, ?_, ?_⟩
      · refine List.isChain_cons.2 ⟨fun q hq => ?_, hdown⟩
        rw [Option.map_some, Option.getD_some, hpath.head?] at hq
        cases hq
        exact hlt
      · rw [Option.map_some, Option.getD_some, List.getLast?_cons, hlast]
        rfl

/-- **Every search comes to an end**, with the owner of the name. -/
theorem search_owner? (h : s.WellFormed) (hi : i < s.scopes.size) (x : String) :
    s.Search x (some i) (s.owner? i x) := by
  induction i using Nat.strongRecOn with
  | ind i ih =>
    obtain ⟨scope, hscope⟩ := exists_scope hi
    rw [h.ordered.owner?_eq hscope]
    cases hbinds : scope.binds x with
    | true => exact .here hscope hbinds
    | false =>
      refine .outward hscope hbinds ?_
      cases hp : scope.parent with
      | none => exact .nowhere
      | some p =>
        have hlt := h.ordered i scope p hscope hp
        exact ih p hlt (Nat.lt_trans hlt hi)

end WellFormed

/-- A search has one end. -/
theorem Search.unique {start r r' : Option ScopeId} (h : s.Search x start r)
    (h' : s.Search x start r') : r' = r := by
  induction h with
  | nowhere =>
    cases h'
    rfl
  | here hscope hbinds =>
    cases h' with
    | here => rfl
    | outward hscope' hbinds' _ =>
      cases hscope.symm.trans hscope'
      rw [hbinds] at hbinds'
      cases hbinds'
  | outward hscope hbinds _ ih =>
    cases h' with
    | here hscope' hbinds' =>
      cases hscope.symm.trans hscope'
      rw [hbinds] at hbinds'
      cases hbinds'
    | outward hscope' _ h' =>
      cases hscope.symm.trans hscope'
      exact ih h'

end Store

end Treewalk
