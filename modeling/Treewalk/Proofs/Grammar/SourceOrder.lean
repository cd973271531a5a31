import Treewalk.Proofs.Grammar.Horizon
import Treewalk.Proofs.Token.Joining

/-!
# Faults in the order of the source

The tokens of a source stand in the order of their lines. So the faults of a
source, which stand in the order they are noted, come out in the order of
their lines too, except where an assignment to what is no variable is noted
behind the faults of its right side.
-/

namespace Treewalk

open Segment

theorem exists_mark_scan (source : String) :
    ∃ t ∈ (scan source).tokens.toList, t.kind = .endOfInput := by
  rw [tokens_scan]
  exact ⟨_, List.mem_append_right _ (List.mem_singleton_self _), rfl⟩

theorem line_le_of_place_le {tokens : List Token} (h : tokens.Pairwise (·.line ≤ ·.line))
    {i j : ℕ} {t u : Token} (ht : tokens[i]? = some t) (hu : tokens[j]? = some u) (hij : i ≤ j) :
    t.line ≤ u.line := by
  obtain ⟨hi, rfl⟩ := List.getElem?_eq_some_iff.1 ht
  obtain ⟨hj, rfl⟩ := List.getElem?_eq_some_iff.1 hu
  rcases Nat.eq_or_lt_of_le hij with rfl | hlt
  · exact Int.le_refl _
  · exact List.pairwise_iff_getElem.1 h i j hi hj hlt

/-- **Faults come out in the order of the source, but for assignments.** Every
fault is reported at the token in its place. Of two faults the one noted
first stands no further on, and is reported on no later line, unless the
other is an assignment to what is no variable: then the first may be one of
the faults that its right side was read past. -/
theorem faults_ordered_but_targets (depth : ℕ) (source : String) :
    let tokens := (scan source).tokens.toList
    let read := parse depth tokens
    let place (f : Fault) := f.position tokens.length
    (∀ f ∈ read.faults.toList, ∃ t, tokens[place f]? = some t ∧
        f.error = .atToken t f.cause.message) ∧
      read.faults.toList.Pairwise fun f g =>
        place f ≤ place g ∧ f.error.line ≤ g.error.line ∨
          g.cause = .invalidTarget ∧ f.cause.Passing := by
  intro tokens read place
  have hordered : read.faults.toList.Pairwise Fault.MayPrecede :=
    (Reading.noted_readAll depth tokens).1
  have hplace : ∀ f ∈ read.faults.toList, ∃ t, tokens[place f]? = some t ∧
      f.error = .atToken t f.cause.message :=
    fun f hf => reported_in_place (exists_mark_scan source) hf
  refine ⟨hplace, hordered.imp_of_mem fun {f g} hf hg hmay => ?_⟩
  rcases hmay with hleft | htarget
  · have hle : place f ≤ place g := Nat.sub_le_sub_left hleft _
    obtain ⟨t, ht, hreported⟩ := hplace f hf
    obtain ⟨u, hu, hreported'⟩ := hplace g hg
    rw [hreported, hreported']
    exact .inl ⟨hle, line_le_of_place_le (lines_scan source) ht hu hle⟩
  · exact .inr htarget

/-- The sign of the inner assignment is reported before that of the outer
one, which stands in front of it. -/
theorem targets_out_of_order :
    ((parse 64 (scan "1 =\n2 =\n3;").tokens.toList).errors.map (·.line)) = #[2, 1] := by
  decide +kernel

end Treewalk
