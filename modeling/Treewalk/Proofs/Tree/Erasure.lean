import Treewalk.Proofs.Token.Rescanning
import Treewalk.Proofs.Tree.Forms

/-!
# What a dump leaves of a tree

A dump says nothing about lines, nor about the parenthesis of a call and the
keyword of a `return`. A grouping is written like the call of a function
`group`, and an infinite literal like a variable `inf`. `Expr.erase` and
`Stmt.erase` make trees that differ in nothing else equal: they keep the form
of a tree, and what they leave of it can be read back from the form.
-/

namespace Treewalk

open Segment

/-! ## Tokens -/

/-- The kind of a sign or a word. -/
def Kind.ofLexeme (text : String) : Kind := (signs.lookup text.toList).getD (Kind.ofWord text)

namespace Token

/-- A token without its line. -/
def erase (t : Token) : Token := { t with line := 0 }

/-- The token that a sign or a word is, without a line. -/
def ofLexeme (text : String) : Token := ⟨Kind.ofLexeme text, text, .nil, 0⟩

end Token

/-- A text that starts like a word is no sign. -/
theorem Kind.ofLexeme_eq_ofWord {text : String} {c : Char} {tail : List Char}
    (htext : text.toList = c :: tail) (hc : isWordChar c = true) :
    Kind.ofLexeme text = Kind.ofWord text := by
  have hnone : signs.lookup text.toList = none := by
    rw [List.lookup_eq_none_iff]
    intro p hp
    have hhead := isWordChar_head_signs p hp
    rw [bne_iff_ne]
    rintro heq
    simp [← heq, htext, hc] at hhead
  rw [Kind.ofLexeme, hnone]
  rfl

/-- A text that starts with a digit is no reserved word. -/
theorem Kind.ofLexeme_of_digit {text : String} {c : Char} {tail : List Char}
    (htext : text.toList = c :: tail) (hc : Number.isDigit c = true) :
    Kind.ofLexeme text = .identifier := by
  have hkeywords : ∀ p ∈ Kind.keywords, p.1.toList.head?.all (fun c => !Number.isDigit c) := by
    decide
  have hnone : Kind.keywords.lookup text = none := by
    rw [List.lookup_eq_none_iff]
    intro p hp
    have hhead := hkeywords p hp
    rw [bne_iff_ne]
    rintro rfl
    simp [htext, hc] at hhead
  rw [Kind.ofLexeme_eq_ofWord htext (by simp [isWordChar, hc]), Kind.ofWord, Kind.keyword?, hnone]
  rfl

/-- **The kind of a token** that stands for itself is that of its text. -/
theorem Segment.Lexeme.ofLexeme_eq {kind : Kind} {text : String} (h : Lexeme kind text.toList)
    (hstring : kind ≠ .string) (hnumber : kind ≠ .number) : Kind.ofLexeme text = kind := by
  generalize hchars : text.toList = chars at h
  cases h with
  | sign hmem =>
    have hsigns : ∀ p ∈ signs, signs.lookup p.1 = some p.2 := by decide
    rw [Kind.ofLexeme, hchars, hsigns _ hmem]
    rfl
  | string _ => exact absurd rfl hstring
  | whole _ | fraction _ _ => exact absurd rfl hnumber
  | word hc _ =>
    rw [Kind.ofLexeme_eq_ofWord hchars (by simp [isWordChar, hc]), ← hchars, String.ofList_toList]

theorem Token.Valid.erase_eq {t : Token} (h : t.Valid) (hstring : t.kind ≠ .string)
    (hnumber : t.kind ≠ .number) : t.erase = .ofLexeme t.lexeme := by
  have hliteral : t.literal = .nil := by
    rw [← h.literal.literal_eq]
    exact literal_of_ne _ hstring hnumber
  rw [Token.erase, Token.ofLexeme, h.lexeme.ofLexeme_eq hstring hnumber, hliteral]

/-! ## Erasing -/

/-- What is left of a literal: an infinite number is taken for a variable. -/
def Value.erase : Value → Expr
  | .number x =>
    if Number.shape x = .infinite false then .name (.ofLexeme "inf") else .literal (.number x)
  | v => .literal v

mutual

/-- What is left of an expression. -/
def Expr.erase : Expr → Expr
  | .literal v => v.erase
  | .grouping e => .call (.name (.ofLexeme "group")) (.ofLexeme ")") [e.erase]
  | .unary o e => .unary o.erase e.erase
  | .binary l o r => .binary l.erase o.erase r.erase
  | .logical l o r => .logical l.erase o.erase r.erase
  | .name t => .name t.erase
  | .assign t e => .assign t.erase e.erase
  | .call f _ es => .call f.erase (.ofLexeme ")") (Expr.eraseAll es)
  | .missing => .missing
  | .unknown => .unknown
  | .stray s => .stray s.erase

/-- What is left of expressions. -/
def Expr.eraseAll : List Expr → List Expr
  | [] => []
  | e :: es => e.erase :: Expr.eraseAll es

/-- What is left of a statement. -/
def Stmt.erase : Stmt → Stmt
  | .expression e => .expression e.erase
  | .print e => .print e.erase
  | .var t none => .var t.erase none
  | .var t (some e) => .var t.erase (some e.erase)
  | .block ss => .block (Stmt.eraseAll ss)
  | .branch e y none => .branch e.erase y.erase none
  | .branch e y (some n) => .branch e.erase y.erase (some n.erase)
  | .loop e s => .loop e.erase s.erase
  | .function t ps ss => .function t.erase (ps.map Token.erase) (Stmt.eraseAll ss)
  | .ret _ none => .ret (.ofLexeme "return") none
  | .ret _ (some e) => .ret (.ofLexeme "return") (some e.erase)
  | .missing => .missing
  | .unknown => .unknown
  | .stray e => .stray e.erase

/-- What is left of statements. -/
def Stmt.eraseAll : List Stmt → List Stmt
  | [] => []
  | s :: ss => s.erase :: Stmt.eraseAll ss

end

theorem Value.form_erase (v : Value) : v.erase.form = .word v.text := by
  unfold Value.erase
  split
  · split
    case isTrue x hinfinite =>
      rw [Value.text, Number.plain, Number.Style.text, hinfinite]
      rfl
    case isFalse => rfl
  · rfl

mutual

theorem Expr.form_erase : ∀ e : Expr, e.erase.form = e.form
  | .literal v => v.form_erase
  | .grouping e => by simp [Expr.erase, Expr.form, Expr.form_erase e, Token.ofLexeme]
  | .unary _ e => by simp [Expr.erase, Expr.form, Expr.form_erase e, Token.erase]
  | .binary l _ r | .logical l _ r => by
    simp [Expr.erase, Expr.form, Expr.form_erase l, Expr.form_erase r, Token.erase]
  | .name _ => rfl
  | .assign _ e => by simp [Expr.erase, Expr.form, Expr.form_erase e, Token.erase]
  | .call f _ es => by
    rw [Expr.erase, Expr.form, Expr.form, Expr.form_erase f, Expr.forms_eraseAll es]
  | .missing | .unknown => rfl
  | .stray s => by rw [Expr.erase, Expr.form, Expr.form, Stmt.form_erase s]

theorem Expr.forms_eraseAll : ∀ es : List Expr, Expr.forms (Expr.eraseAll es) = Expr.forms es
  | [] => rfl
  | e :: es => by
    rw [Expr.eraseAll, Expr.forms, Expr.forms, Expr.form_erase e, Expr.forms_eraseAll es]

/-- **Erasing keeps the form.** -/
theorem Stmt.form_erase : ∀ s : Stmt, s.erase.form = s.form
  | .expression e | .print e => by simp [Stmt.erase, Stmt.form, Expr.form_erase e]
  | .var _ none => rfl
  | .var _ (some e) => by simp [Stmt.erase, Stmt.form, Expr.form_erase e, Token.erase]
  | .block ss => by rw [Stmt.erase, Stmt.form, Stmt.form, Stmt.forms_eraseAll ss]
  | .branch e y none => by simp [Stmt.erase, Stmt.form, Expr.form_erase e, Stmt.form_erase y]
  | .branch e y (some n) => by
    simp [Stmt.erase, Stmt.form, Expr.form_erase e, Stmt.form_erase y, Stmt.form_erase n]
  | .loop e s => by simp [Stmt.erase, Stmt.form, Expr.form_erase e, Stmt.form_erase s]
  | .function _ ps ss => by
    have hparams : (ps.map Token.erase).map (·.lexeme) = ps.map (·.lexeme) := List.map_map
    rw [Stmt.erase, Stmt.form, Stmt.form, Stmt.forms_eraseAll ss, hparams]
    rfl
  | .ret _ none => rfl
  | .ret _ (some e) => by simp [Stmt.erase, Stmt.form, Expr.form_erase e]
  | .missing | .unknown => rfl
  | .stray e => by rw [Stmt.erase, Stmt.form, Stmt.form, Expr.form_erase e]

theorem Stmt.forms_eraseAll : ∀ ss : List Stmt, Stmt.forms (Stmt.eraseAll ss) = Stmt.forms ss
  | [] => rfl
  | s :: ss => by
    rw [Stmt.eraseAll, Stmt.forms, Stmt.forms, Stmt.form_erase s, Stmt.forms_eraseAll ss]

end

end Treewalk
