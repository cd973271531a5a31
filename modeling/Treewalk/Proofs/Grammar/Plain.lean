import Treewalk.Proofs.Grammar.Building
import Treewalk.Proofs.Grammar.Completeness
import Treewalk.Proofs.Token.Scanning
import Treewalk.Proofs.Tree.Contents

/-!
# Trees of plain tokens

The literal of a token is a string, a number or nothing, never a declared
function; so no tree that is read from a source holds one. A tree that is
read as a statement, and not as a declaration, declares nothing in the scope
around it.
-/

namespace Treewalk

/-- Tokens that stand for no declared function. -/
def Token.Plain (t : Token) : Prop := t.literal.scope? = none

theorem scope?_literal (kind : Kind) (lexeme : List Char) :
    (Segment.literal kind lexeme).scope? = none := by
  unfold Segment.literal
  split <;> rfl

/-- **The tokens of a source are plain.** -/
theorem plain_of_mem_scan {source : String} {t : Token}
    (h : t ∈ (scan source).tokens.toList) : t.Plain := by
  have htokens (line : Nat) (segments : List Segment) :
      ∀ t ∈ Segment.tokensFrom line segments, t.Plain := by
    induction segments generalizing line with
    | nil => exact List.forall_mem_nil _
    | cons s rest ih =>
      refine List.forall_mem_append.2 ⟨fun t ht => ?_, ih _⟩
      cases s with
      | token kind lexeme =>
        obtain rfl := Option.some.inj (Option.mem_toList.1 ht)
        exact scope?_literal kind lexeme
      | _ => cases ht
  rw [tokens_scan] at h
  rcases List.mem_append.1 h with h | h
  · exact htokens _ _ t h
  · rw [List.mem_singleton.1 h]
    rfl

namespace Reading

/-- **The literals of a tree** are constants, or literals of its tokens. -/
theorem builds_literals {P : Value → Prop} (hbool : ∀ b, P (.bool b)) (hnil : P .nil) :
    Builds (fun t => P t.literal) (fun e => ∀ v ∈ e.literals, P v)
      (fun s => (∀ v ∈ s.literals, P v) ∧ s.declared = []) (fun s => ∀ v ∈ s.literals, P v) where
  bool b := List.forall_mem_singleton.2 (hbool b)
  nil := List.forall_mem_singleton.2 hnil
  literal ht := List.forall_mem_singleton.2 ht
  name _ := List.forall_mem_nil _
  grouping he := he
  unary _ he := he
  binary _ hl hr := List.forall_mem_append.2 ⟨hl, hr⟩
  logical _ hl hr := List.forall_mem_append.2 ⟨hl, hr⟩
  assign _ he := he
  call _ hf hes := by
    rw [Expr.literals, Expr.literalsAll_eq_flatMap]
    exact List.forall_mem_append.2 ⟨hf, List.forall_mem_flatMap.2 hes⟩
  var {e?} _ he := by
    cases e? with
    | none => exact List.forall_mem_nil _
    | some e => exact he e rfl
  function _ _ hss := by
    rw [Stmt.literals, Stmt.literalsAll_eq_flatMap]
    exact List.forall_mem_flatMap.2 hss
  statement hs := hs.1
  expression he := ⟨he, rfl⟩
  print he := ⟨he, rfl⟩
  block hss := by
    refine ⟨?_, rfl⟩
    rw [Stmt.literals, Stmt.literalsAll_eq_flatMap]
    exact List.forall_mem_flatMap.2 hss
  branch {e y n?} he hy hn := by
    cases n? with
    | none => exact ⟨List.forall_mem_append.2 ⟨he, hy.1⟩, hy.2⟩
    | some n =>
      have hn := hn n rfl
      refine ⟨List.forall_mem_append.2 ⟨he, List.forall_mem_append.2 ⟨hy.1, hn.1⟩⟩, ?_⟩
      rw [Stmt.declared, hy.2, hn.2]
      rfl
  loop he hs := ⟨List.forall_mem_append.2 ⟨he, hs.1⟩, hs.2⟩
  ret {e?} _ he := by
    refine ⟨?_, rfl⟩
    cases e? with
    | none => exact List.forall_mem_nil _
    | some e => exact he e rfl

theorem builds_plain :
    Builds Token.Plain Expr.Plain (fun s => s.Plain ∧ s.declared = []) Stmt.Plain :=
  builds_literals (P := fun v => v.scope? = none) (fun _ => rfl) rfl

end Reading

/-- **No tree of a source holds a declared function**, whatever else is wrong
with the source. -/
theorem plain_of_mem_parse (depth : Nat) {source : String} {s : Stmt}
    (h : s ∈ (parse depth (scan source).tokens.toList).statements) : s.Plain := by
  rw [parse_eq] at h
  exact Reading.builds_plain.readAll (fun _ => plain_of_mem_scan) depth s h

/-! ## Derivations -/

/-- What a reading makes of good tokens holds of what the tokens stand for. -/
theorem Reading.Reads.made {α : Type} {good : Token → Prop} {P : α → Prop} {inside : Bool}
    {m : Nat → Reading α} {kinds : List Kind} {ts : List Token} {a : α}
    (h : Reads inside m kinds ts a) (hm : ∀ room, Makes good P (m room))
    (hts : ∀ t ∈ ts, good t) : P a := by
  have hread := h ts.length [] #[] 1 (Nat.le_refl _) (stops_nil _) fun _ => Nat.one_pos
  have hmade := hm ts.length ⟨ts ++ [], #[], 1⟩ (by rwa [Ahead, List.append_nil])
  rw [hread] at hmade
  cases hmade with
  | ok _ ha => exact ha

namespace Grammar

variable {ts : List Token} (hts : ∀ t ∈ ts, t.Plain)
include hts

theorem plain_of_derivesExpr {e : Expr} (h : DerivesExpr ts e) : e.Plain := by
  obtain ⟨d, hd⟩ := (eventually_readsExpr h).exists
  exact hd.reads.made (fun room => (Reading.makes_expressions Reading.builds_plain room d).1) hts

theorem plain_of_optional {e? : Option Expr} (h : Optional DerivesExpr ts e?) :
    ∀ e ∈ e?, e.Plain := by
  rintro e he
  cases h with
  | none => cases he
  | some h => exact Option.some.inj he ▸ plain_of_derivesExpr hts h

theorem plain_of_initial {s? : Option Stmt} (h : Initial ts s?) : ∀ s ∈ s?, s.Plain := by
  obtain ⟨d, hd⟩ := (eventually_reads_initial h).exists
  exact hd.made (fun room => (Reading.makes_expressions Reading.builds_plain room d).1.initialClause
    Reading.builds_plain) hts

/-- A statement of the grammar declares nothing in the scope around it. -/
theorem plain_of_derivesStmt {inside dangling : Bool} {s : Stmt}
    (h : DerivesStmt inside (.statement dangling) ts s) : s.Plain ∧ s.declared = [] := by
  obtain ⟨d, hd⟩ := (eventually_readsForm h).exists
  exact hd.made (fun room => (Reading.makes_statements Reading.builds_plain room d).2) hts

end Grammar

end Treewalk
