import Treewalk.Proofs.Grammar.Rules

/-!
# Brackets

The parentheses and braces of a program are well nested: read from the left,
each closing bracket matches the bracket opened last, and none is left open.
The brackets still open are kept as the list of the closing ones they wait
for. A part of a program is *balanced* if it can be read behind any brackets
and leaves them as they are, and every phrase of the grammar is: brackets
stand only around balanced parts, in groupings, argument and parameter lists,
behind `if`, `while` and `for`, and in blocks and function bodies.

Prompts only count brackets. In a well-nested word the numbers agree
(`count_eq_of_wellNested`).
-/

namespace Treewalk

namespace Nesting

/-- Reads one more kind behind open brackets, given as the closing brackets
they wait for, innermost first. Fails at a closing bracket that is not the one
waited for. -/
def step (awaited : List Kind) : Kind → Option (List Kind)
  | .leftParen => some (.rightParen :: awaited)
  | .leftBrace => some (.rightBrace :: awaited)
  | .rightParen => if awaited.head? = some .rightParen then some awaited.tail else none
  | .rightBrace => if awaited.head? = some .rightBrace then some awaited.tail else none
  | _ => some awaited

/-- The brackets that are open behind a word. -/
def follow (awaited kinds : List Kind) : Option (List Kind) := kinds.foldlM step awaited

@[simp] theorem follow_nil (awaited : List Kind) : follow awaited [] = some awaited := rfl

@[simp] theorem follow_cons (awaited : List Kind) (kind : Kind) (kinds : List Kind) :
    follow awaited (kind :: kinds) = (step awaited kind).bind (follow · kinds) := rfl

@[simp] theorem follow_append (awaited first second : List Kind) :
    follow awaited (first ++ second) = (follow awaited first).bind (follow · second) :=
  List.foldlM_append

end Nesting

open Nesting

/-- Every closing bracket matches the bracket opened last, and none is left
open. -/
def WellNested (kinds : List Kind) : Prop := follow [] kinds = some []

instance (kinds : List Kind) : Decidable (WellNested kinds) :=
  inferInstanceAs (Decidable (follow [] kinds = some []))

example : WellNested [.leftBrace, .leftParen, .comma, .rightParen, .rightBrace] := by decide

example : ¬ WellNested [.leftBrace, .leftParen, .rightBrace, .rightParen] := by decide

/-! ## Counting brackets -/

namespace Nesting

variable {awaited rest kinds : List Kind}

/-- Two kinds of bracket, one opening and one closing. -/
inductive Pair : Kind → Kind → Prop
  | parens : Pair .leftParen .rightParen
  | braces : Pair .leftBrace .rightBrace

/-- **One kind** adds to what is waited for as much as it adds to the opening
brackets, less what it adds to the closing ones. -/
theorem count_step {kind opening closing : Kind} (hpair : Pair opening closing)
    (h : step awaited kind = some rest) :
    awaited.count closing + [kind].count opening = rest.count closing + [kind].count closing := by
  cases hpair <;> cases awaited <;> cases kind <;> simp [step, List.count_cons] at h ⊢ <;> grind

theorem count_follow {opening closing : Kind} (hpair : Pair opening closing)
    (h : follow awaited kinds = some rest) :
    awaited.count closing + kinds.count opening = rest.count closing + kinds.count closing := by
  induction kinds generalizing awaited with
  | nil =>
    obtain rfl : awaited = rest := by simpa using h
    simp
  | cons kind kinds ih =>
    obtain ⟨next, hstep, hnext⟩ := Option.bind_eq_some_iff.1 h
    have hkind := count_step hpair hstep
    have hkinds := ih hnext
    rw [← List.singleton_append, List.count_append, List.count_append]
    omega

/-- **Nested brackets are equal in number**, for each kind of bracket. -/
theorem count_eq_of_wellNested {opening closing : Kind} (hpair : Pair opening closing)
    (h : WellNested kinds) : kinds.count opening = kinds.count closing := by
  simpa using count_follow hpair h

/-- The kinds that are brackets. -/
def brackets : List Kind := [.leftParen, .rightParen, .leftBrace, .rightBrace]

/-- Nothing else opens or closes anything. -/
theorem step_of_notMem {kind : Kind} (h : kind ∉ brackets) : step awaited kind = some awaited := by
  cases kind <;> first | rfl | exact absurd (by decide) h

end Nesting

/-! ## The phrases of the grammar -/

namespace Grammar

/-- Tokens that can be read behind any brackets and leave them as they
are. -/
def Balanced (ts : List Token) : Prop := ∀ awaited, follow awaited (ts.map (·.kind)) = some awaited

variable {ts us : List Token}

theorem balanced_nil : Balanced [] := fun _ => rfl

theorem Balanced.append (hts : Balanced ts) (hus : Balanced us) : Balanced (ts ++ us) := fun awaited => by
  simp [hts awaited, hus awaited]

theorem Balanced.flatMap {α : Type} {parts : List α} {f : α → List Token}
    (h : ∀ p ∈ parts, Balanced (f p)) : Balanced (parts.flatMap f) := by
  induction parts with
  | nil => exact balanced_nil
  | cons p parts ih =>
    rw [List.flatMap_cons]
    exact (h p (by simp)).append (ih fun q hq => h q (by simp [hq]))

/-- A token that is no bracket leaves what it stands in front of balanced. -/
theorem Balanced.cons {t : Token} {kind : Kind} (ht : t.kind = kind) (hkind : kind ∉ brackets)
    (hts : Balanced ts) : Balanced (t :: ts) := fun awaited => by
  simp [ht, step_of_notMem hkind, hts awaited]

theorem balanced_singleton {t : Token} {kind : Kind} (ht : t.kind = kind)
    (hkind : kind ∉ brackets) : Balanced [t] :=
  balanced_nil.cons ht hkind

/-- **Brackets around balanced tokens** are balanced, with balanced tokens
behind them. -/
theorem Balanced.enclosed {opening closing : Token} {left right : Kind} (hpair : Pair left right)
    (hopening : opening.kind = left) (hclosing : closing.kind = right)
    (hts : Balanced ts) (hus : Balanced us) : Balanced (opening :: (ts ++ closing :: us)) := by
  intro awaited
  cases hpair <;> simp [hopening, hclosing, step, hts _, hus _]

theorem Commas.balanced {parts : List (List Token)} (h : Commas parts ts)
    (hparts : ∀ us ∈ parts, Balanced us) : Balanced ts := by
  induction h with
  | nil => exact balanced_nil
  | one => exact hparts _ (by simp)
  | cons hcomma _ _ ih =>
    exact (hparts _ (by simp)).append
      ((ih fun us hus => hparts us (by simp [hus])).cons hcomma (by decide))

theorem Arguments.Punctuated.balanced {a : Arguments} (h : a.Punctuated)
    (hparts : ∀ p ∈ a.parts, Balanced p.1) : Balanced a.all := by
  refine Balanced.enclosed .parens h.opening h.closing (h.commas.balanced ?_) balanced_nil
  simpa using fun us e hmem => hparts (us, e) hmem

/-- The operators of chains are no brackets. -/
theorem Chain.notMem_brackets {p q : Phrase} {operators : List Kind}
    {node : Expr → Token → Expr → Expr} (h : Chain p q operators node) :
    ∀ kind ∈ operators, kind ∉ brackets := by
  cases h <;> decide

/-- **Expressions are balanced.** -/
theorem Derives.balanced {p : Phrase} {e : Expr} (h : Derives p ts e) : Balanced ts := by
  induction h with
  | assign hname hequals _ ih => exact (ih.cons hequals (by decide)).cons hname (by decide)
  | assignment _ ih | operand _ ih => exact ih
  | chain hchain _ hoperators _ ih ihs =>
    exact ih.append (.flatMap fun l hl =>
      (ihs l hl).cons rfl (hchain.notMem_brackets _ (hoperators l hl)))
  | unary hoperator _ ih =>
    rcases hoperator with h | h
    · exact ih.cons h (by decide)
    · exact ih.cons h (by decide)
  | call _ hlists _ ih ihs =>
    exact ih.append (.flatMap fun a ha => (hlists a ha).balanced fun p hp => ihs a ha p hp)
  | false h | true h | nil h | number h | string h | name h => exact balanced_singleton h (by decide)
  | grouping hopening _ hclosing ih => exact ih.enclosed .parens hopening hclosing balanced_nil

/-- Balanced tokens with a semicolon behind them. -/
theorem Balanced.semicolon {t : Token} (hts : Balanced ts) (ht : t.kind = .semicolon) :
    Balanced (ts ++ [t]) :=
  hts.append (balanced_singleton ht (by decide))

theorem Optional.balanced {e : Option Expr} (h : Optional DerivesExpr ts e) : Balanced ts := by
  cases h with
  | none => exact balanced_nil
  | some he => exact he.balanced

theorem VarDecl.balanced {s : Stmt} (h : VarDecl ts s) : Balanced ts := by
  cases h with
  | plain hkeyword hname hsemicolon =>
    exact ((balanced_nil.semicolon hsemicolon).cons hname (by decide)).cons hkeyword (by decide)
  | initial hkeyword hname hequals he hsemicolon =>
    exact (((he.balanced.semicolon hsemicolon).cons hequals (by decide)).cons hname
      (by decide)).cons hkeyword (by decide)

theorem ExprStmt.balanced {s : Stmt} (h : ExprStmt ts s) : Balanced ts := by
  cases h with
  | mk he hsemicolon => exact he.balanced.semicolon hsemicolon

theorem Initial.balanced {s : Option Stmt} (h : Initial ts s) : Balanced ts := by
  cases h with
  | none hsemicolon => exact balanced_nil.semicolon hsemicolon
  | var h => exact h.balanced
  | expression h => exact h.balanced

/-- **Statements are balanced.** -/
theorem DerivesStmt.balanced {inside : Bool} {form : Form} {s : Stmt}
    (h : DerivesStmt inside form ts s) : Balanced ts := by
  induction h with
  | function hkeyword hname hopening hparams hcommas _ hclosing hbrace _ hend ih =>
    have hlist := hcommas.balanced fun us hus => by
      obtain ⟨p, hp, rfl⟩ := List.mem_map.1 hus
      exact balanced_singleton (hparams p hp) (by decide)
    have hbody := (Balanced.flatMap ih).enclosed .braces hbrace hend balanced_nil
    exact ((hlist.enclosed .parens hopening hclosing hbody).cons hname (by decide)).cons hkeyword
      (by decide)
  | var h => exact h.balanced
  | statement _ ih => exact ih
  | branch hkeyword hopening hcondition hclosing _ ih
  | loop hkeyword hopening hcondition hclosing _ ih =>
    exact (hcondition.balanced.enclosed .parens hopening hclosing ih).cons hkeyword (by decide)
  | branchElse hkeyword hopening hcondition hclosing _ helse _ ihyes ihno =>
    exact (hcondition.balanced.enclosed .parens hopening hclosing
      (ihyes.append (ihno.cons helse (by decide)))).cons hkeyword (by decide)
  | forLoop hkeyword hopening hinitial hcondition hsemicolon hstep hclosing _ ih =>
    have hclauses := hinitial.balanced.append
      (hcondition.balanced.append (hstep.balanced.cons hsemicolon (by decide)))
    simpa using (hclauses.enclosed .parens hopening hclosing ih).cons hkeyword (by decide)
  | print hkeyword he hsemicolon =>
    exact (he.balanced.semicolon hsemicolon).cons hkeyword (by decide)
  | ret hkeyword he hsemicolon =>
    exact (he.balanced.semicolon hsemicolon).cons hkeyword (by decide)
  | block hbrace _ hend ih => exact (Balanced.flatMap ih).enclosed .braces hbrace hend balanced_nil
  | expression h => exact h.balanced

/-- **Programs are balanced.** -/
theorem Program.balanced {program : List Stmt} (h : Program ts program) : Balanced ts := by
  obtain ⟨parts, hparts, rfl, -⟩ := h
  exact .flatMap fun p hp => (hparts p hp).balanced

end Grammar

end Treewalk
