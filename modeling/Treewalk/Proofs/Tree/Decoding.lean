import Treewalk.Proofs.Grammar.WellFormed
import Treewalk.Proofs.Number.Numerals
import Treewalk.Proofs.Tree.Contents
import Treewalk.Proofs.Tree.Erasure

/-!
# Reading forms back

Every form is read as an expression and as a statement. What a list is hangs
on its first word, on the number of its parts and on the place where it
stands: `-` with one part is a prefix operator and with two a binary one, and
`if` is a branch as a statement only. A word is a number if it is the text of
one. **The form of a well-formed tree with no strings in it is read back** as
what erasing leaves of the tree.
-/

namespace Treewalk

open Segment

/-! ## Reading -/

namespace Form

/-- The text of a word; a list has none. -/
def text : Form → String
  | .word text => text
  | .list _ => ""

open Classical in
/-- The expression that a word is: a constant, the number with that text, or
a variable. -/
noncomputable def atom (text : String) : Expr :=
  match Kind.ofLexeme text with
  | .kwNil => .literal .nil
  | .kwTrue => .literal (.bool true)
  | .kwFalse => .literal (.bool false)
  | _ =>
    if h : ∃ x, Number.Unsigned x ∧ Number.shape x ≠ .infinite false ∧ Number.plain x = text then
      .literal (.number h.choose)
    else .name (.ofLexeme text)

/-- The kinds that the first word of an operation has. -/
def operatorKinds : List Kind :=
  .equal :: .kwOr :: .kwAnd :: (Operators.unaryKinds ++ Operators.binaryKinds)

/-- The expression that a list is, by its first form and its parts. -/
def combine (first : Form) (callee : Expr) (parts : List Expr) : Expr :=
  let o := Token.ofLexeme first.text
  match parts with
  | [e] => if o.kind ∈ Operators.unaryKinds then .unary o e else .call callee (.ofLexeme ")") [e]
  | [l, r] =>
    match o.kind, l with
    | .equal, .name t => .assign t r
    | kind, _ =>
      if kind ∈ Operators.binaryKinds then .binary l o r
      else if kind ∈ [Kind.kwOr, .kwAnd] then .logical l o r
      else .call callee (.ofLexeme ")") [l, r]
  | es => .call callee (.ofLexeme ")") es

mutual

/-- The expression that a form is. -/
noncomputable def expr : Form → Expr
  | .word text => atom text
  | .list [] => .missing
  | .list (f :: fs) => combine f f.expr (exprs fs)

/-- The expressions that forms are. -/
noncomputable def exprs : List Form → List Expr
  | [] => []
  | f :: fs => f.expr :: exprs fs

end

/-- The statement that a list is, by its first word and what is behind it:
the forms, and what they are as expressions and as statements. -/
def assemble : String → List Form → List Expr → List Stmt → Stmt
  | ";", _, [e], _ => .expression e
  | "print", _, [e], _ => .print e
  | "var", [t], _, _ => .var (.ofLexeme t.text) none
  | "var", [t, _], [_, e], _ => .var (.ofLexeme t.text) (some e)
  | "block", _, _, ss => .block ss
  | "if", _, [e, _], [_, y] => .branch e y none
  | "if", _, [e, _, _], [_, y, n] => .branch e y (some n)
  | "while", _, [e, _], [_, s] => .loop e s
  | "fun", t :: .list ps :: _, _, _ :: _ :: ss =>
    .function (.ofLexeme t.text) (ps.map fun p => .ofLexeme p.text) ss
  | "return", _, [], _ => .ret (.ofLexeme "return") none
  | "return", _, [e], _ => .ret (.ofLexeme "return") (some e)
  | _, _, _, _ => .missing

mutual

/-- The statement that a form is. -/
noncomputable def stmt : Form → Stmt
  | .word _ => .missing
  | .list [] => .missing
  | .list (f :: fs) => assemble f.text fs (exprs fs) (stmts fs)

/-- The statements that forms are. -/
noncomputable def stmts : List Form → List Stmt
  | [] => []
  | f :: fs => f.stmt :: stmts fs

end

end Form

/-! ## Words -/

/-- Literals that are not strings, as a source can have them. -/
def Value.Legible : Value → Prop
  | .nil | .bool _ => True
  | .number x => Number.Unsigned x
  | .string _ | .function _ => False

/-- An identifier starts with a letter. -/
theorem Segment.Lexeme.exists_letter {text : List Char} (h : Lexeme .identifier text) :
    ∃ c tail, text = c :: tail ∧ isLetter c = true ∧ ∀ d ∈ tail, isWordChar d = true := by
  have hsigns : ∀ p ∈ signs, p.2 ≠ .identifier := by decide
  generalize hkind : Kind.identifier = kind at h
  cases h with
  | sign hmem => exact absurd hkind.symm (hsigns _ hmem)
  | string _ | whole _ | fraction _ _ => cases hkind
  | word hc htail => exact ⟨_, _, rfl, hc, htail⟩

namespace Form

theorem atom_identifier {text : String} (h : Lexeme .identifier text.toList) :
    atom text = .name (.ofLexeme text) := by
  have hkind : Kind.ofLexeme text = .identifier := h.ofLexeme_eq nofun nofun
  obtain ⟨c, tail, htext, hc, -⟩ := h.exists_letter
  have hnone : ¬∃ x, Number.Unsigned x ∧ Number.shape x ≠ .infinite false ∧
      Number.plain x = text := by
    rintro ⟨x, hx, hfinite, hplain⟩
    rcases hx.exists_numeral with ⟨hinfinite, -⟩ | ⟨-, n, hn, hnumeral⟩
    · exact hfinite hinfinite
    · -- a numeral starts with a digit
      obtain ⟨d, rest, hd, hdigit⟩ := hn.exists_head
      rw [hplain, htext, hd] at hnumeral
      obtain ⟨rfl, -⟩ := List.cons.inj hnumeral
      simp [isDigit_of_isLetter hc] at hdigit
  rw [atom, hkind]
  exact dif_neg hnone

theorem atom_plain {x : Float} (hx : Number.Unsigned x)
    (hfinite : Number.shape x ≠ .infinite false) {n : Number.Numeral} (hn : n.Proper)
    (hplain : (Number.plain x).toList = n.text) :
    atom (Number.plain x) = .literal (.number x) := by
  obtain ⟨c, rest, htext, hc⟩ := hn.exists_head
  have hkind := Kind.ofLexeme_of_digit (hplain.trans htext) hc
  have hsome : ∃ y, Number.Unsigned y ∧ Number.shape y ≠ .infinite false ∧
      Number.plain y = Number.plain x := ⟨x, hx, hfinite, rfl⟩
  have heq : hsome.choose = x := by
    obtain ⟨hy, -, htexts⟩ := hsome.choose_spec
    exact Number.eq_of_text hy.shape_ne hx.shape_ne htexts
  rw [atom, hkind]
  exact (dif_pos hsome).trans (by rw [heq])

theorem clean_of_wordChars {text : String} {c : Char} {tail : List Char}
    (htext : text.toList = c :: tail) (hchars : ∀ d ∈ c :: tail, isWordChar d = true) :
    (word text).Clean := by
  have hdelimiters : (delimiters.all fun d => !isWordChar d) = true := by decide
  refine ⟨by simp [htext], fun d hd hmem => ?_⟩
  rw [htext] at hd
  simpa [hchars d hd] using List.all_eq_true.1 hdelimiters d hmem

/-- The words that are in dumps whatever the names in a tree are. -/
def headings : List String :=
  ["nil", "true", "false", "group", "=", ";", "print", "var", "block", "if", "while", "fun",
   "return"]

theorem clean_heading {text : String} (h : text ∈ headings) : (word text).Clean := by
  have hall : ∀ text ∈ headings,
      text.toList ≠ [] ∧ (text.toList.all fun c => decide (c ∉ delimiters)) = true := by decide
  obtain ⟨hne, hchars⟩ := hall text h
  exact ⟨hne, fun c hc => of_decide_eq_true (List.all_eq_true.1 hchars c hc)⟩

theorem clean_identifier {text : String} (h : Lexeme .identifier text.toList) :
    (word text).Clean := by
  obtain ⟨c, tail, htext, hc, htail⟩ := h.exists_letter
  exact clean_of_wordChars htext (List.forall_mem_cons.2 ⟨by simp [isWordChar, hc], htail⟩)

theorem clean_plain {x : Float} {n : Number.Numeral} (hn : n.Proper)
    (hplain : (Number.plain x).toList = n.text) : (word (Number.plain x)).Clean := by
  have hdelimiters : (delimiters.all fun d =>
      decide (Number.isDigit d = false ∧ d ∉ ['.', 'e', '-', '+'])) = true := by decide
  obtain ⟨c, rest, htext, -⟩ := hn.exists_head
  refine ⟨by simp [hplain, htext], fun d hd hmem => ?_⟩
  obtain ⟨hdigit, hmark⟩ := of_decide_eq_true (List.all_eq_true.1 hdelimiters d hmem)
  rw [hplain] at hd
  rcases hn.mem_text hd with h | h
  · simp [hdigit] at h
  · exact hmark h

theorem decode_constant {v : Value} (h : v = .nil ∨ ∃ b, v = .bool b) : (word v.text).Clean ∧
    atom v.text = v.erase ∧ Kind.ofLexeme v.text ∉ operatorKinds := by
  rcases h with rfl | ⟨_ | _, rfl⟩ <;> exact ⟨clean_heading (by decide), rfl, by decide⟩

theorem decode_number {x : Float} (hx : Number.Unsigned x) : (word (Number.plain x)).Clean ∧
    atom (Number.plain x) = (Value.number x).erase ∧
      Kind.ofLexeme (Number.plain x) ∉ operatorKinds := by
  rw [Value.erase]
  rcases hx.exists_numeral with ⟨hinfinite, hplain⟩ | ⟨hfinite, n, hn, hplain⟩
  · have hinf : Lexeme .identifier "inf".toList :=
      @Lexeme.word 'i' ['n', 'f'] rfl (List.all_eq_true.1 (by decide))
    rw [if_pos hinfinite, hplain]
    exact ⟨clean_identifier hinf, atom_identifier hinf, by decide⟩
  · obtain ⟨c, rest, htext, hc⟩ := hn.exists_head
    have hkind := Kind.ofLexeme_of_digit (hplain.trans htext) hc
    rw [if_neg hfinite]
    exact ⟨clean_plain hn hplain, atom_plain hx hfinite hn hplain, hkind ▸ by decide⟩

/-- **The word of a literal is read back**, and it is no operator. -/
theorem decode_literal {v : Value} (h : v.Legible) : (word v.text).Clean ∧
    atom v.text = v.erase ∧ Kind.ofLexeme v.text ∉ operatorKinds := by
  cases v with
  | nil => exact decode_constant (.inl rfl)
  | bool b => exact decode_constant (.inr ⟨b, rfl⟩)
  | number x => exact decode_number h
  | string _ | function _ => exact h.elim

end Form

/-! ## Tokens -/

/-- A token that a source can have, in a role that suits it. -/
def Suits (r : Role) (t _ : Token) : Prop := t.Valid ∧ t.kind ∈ r.kinds

section

variable {r : Role} {t t' : Token}

theorem Role.string_number_notMem (r : Role) : .string ∉ r.kinds ∧ .number ∉ r.kinds := by
  cases r <;> decide

theorem Suits.ofLexeme_eq (h : Suits r t t') : Kind.ofLexeme t.lexeme = t.kind := by
  obtain ⟨hstring, hnumber⟩ := r.string_number_notMem
  exact h.1.lexeme.ofLexeme_eq (fun heq => hstring (heq ▸ h.2)) fun heq => hnumber (heq ▸ h.2)

theorem Suits.erase_eq (h : Suits r t t') : t.erase = .ofLexeme t.lexeme := by
  obtain ⟨hstring, hnumber⟩ := r.string_number_notMem
  exact h.1.erase_eq (fun heq => hstring (heq ▸ h.2)) fun heq => hnumber (heq ▸ h.2)

/-- Only a parenthesis is a delimiter. -/
theorem Suits.clean (h : Suits r t t') (hr : r ≠ .paren) : (Form.word t.lexeme).Clean := by
  obtain ⟨hvalid, hkind⟩ := h
  have hroles : ∀ r : Role, r ≠ .paren → ∀ kind ∈ r.kinds,
      kind ∉ [Kind.leftParen, .rightParen, .string, .number] := by
    intro r
    cases r <;> decide
  have hplain := hroles r hr t.kind hkind
  have hlexeme := hvalid.lexeme
  generalize hchars : t.lexeme.toList = chars at hlexeme
  generalize t.kind = kind at hplain hlexeme
  cases hlexeme with
  | sign hmem =>
    have hsigns : ∀ p ∈ signs, p.2 ∉ [Kind.leftParen, .rightParen, .string, .number] →
        p.1 ≠ [] ∧ (p.1.all fun c => decide (c ∉ Form.delimiters)) = true := by decide
    obtain ⟨hne, hsign⟩ := hsigns _ hmem hplain
    rw [Form.Clean, hchars]
    exact ⟨hne, fun c hc => of_decide_eq_true (List.all_eq_true.1 hsign c hc)⟩
  | string _ | whole _ | fraction _ _ => simp at hplain
  | word hc htail =>
    exact Form.clean_of_wordChars hchars
      (List.forall_mem_cons.2 ⟨by simp [isWordChar, hc], htail⟩)

theorem Suits.identifier (h : Suits .name t t') : Lexeme .identifier t.lexeme.toList := by
  obtain ⟨hvalid, hkind⟩ := h
  exact List.mem_singleton.1 hkind ▸ hvalid.lexeme

end

/-! ## Lists -/

namespace Form

variable {o : String} {callee : Expr}

theorem combine_unary (ho : Kind.ofLexeme o ∈ Operators.unaryKinds) (e : Expr) :
    combine (.word o) callee [e] = .unary (.ofLexeme o) e :=
  if_pos ho

theorem combine_binary (ho : Kind.ofLexeme o ∈ Operators.binaryKinds) (l r : Expr) :
    combine (.word o) callee [l, r] = .binary l (.ofLexeme o) r := by
  have hne : Kind.ofLexeme o ≠ .equal := by
    intro heq
    simp [heq, Operators.binaryKinds] at ho
  simp [combine, text, Token.ofLexeme, hne, ho]

theorem combine_logical (ho : Kind.ofLexeme o ∈ [Kind.kwOr, .kwAnd]) (l r : Expr) :
    combine (.word o) callee [l, r] = .logical l (.ofLexeme o) r := by
  rcases List.mem_pair.1 ho with heq | heq <;>
    simp [combine, text, Token.ofLexeme, heq, Operators.binaryKinds]

theorem combine_call {f : Form} (hf : Kind.ofLexeme f.text ∉ operatorKinds) (es : List Expr) :
    combine f callee es = .call callee (.ofLexeme ")") es := by
  simp only [operatorKinds, List.mem_cons, List.mem_append, not_or] at hf
  obtain ⟨hequal, hor, hand, hunary, hbinary⟩ := hf
  match es with
  | [] => rfl
  | [e] => exact if_neg hunary
  | [l, r] => simp [combine, Token.ofLexeme, hequal, hor, hand, hbinary]
  | _ :: _ :: _ :: _ => rfl

end Form

/-! ## Trees -/

/-- What is called is no operator. -/
theorem Expr.Like.first_notMem {e e' : Expr} (h : Expr.Like Suits False e e')
    (hliterals : ∀ v ∈ e.literals, v.Legible) :
    Kind.ofLexeme e.form.text ∉ Form.operatorKinds := by
  have hlist : Kind.ofLexeme "" ∉ Form.operatorKinds := by decide
  have hidentifier : Kind.identifier ∉ Form.operatorKinds := by decide
  cases h with
  | literal v => exact (Form.decode_literal (hliterals v List.mem_cons_self)).2.2
  | name ht =>
    rw [← ht.identifier.ofLexeme_eq nofun nofun] at hidentifier
    exact hidentifier
  | missing h | unknown h | stray h _ => exact h.elim
  | _ => exact hlist

open Form

mutual

theorem Expr.Like.decode : ∀ e e' : Expr, Expr.Like Suits False e e' →
    (∀ v ∈ e.literals, v.Legible) → e.form.Clean ∧ e.form.expr = e.erase
  | .literal v, _, .literal _, hliterals => by
    obtain ⟨hclean, hatom, -⟩ := decode_literal (hliterals v List.mem_cons_self)
    exact ⟨hclean, hatom⟩
  | .grouping e, _, .grouping h, hliterals => by
    obtain ⟨hclean, hexpr⟩ := Expr.Like.decode e _ h hliterals
    have hgroup : Lexeme .identifier "group".toList :=
      @Lexeme.word 'g' ['r', 'o', 'u', 'p'] rfl (List.all_eq_true.1 (by decide))
    have hcall : Kind.ofLexeme (Form.word "group").text ∉ operatorKinds := by decide
    refine ⟨⟨clean_heading (by decide), hclean, trivial⟩, ?_⟩
    rw [Expr.form, Form.expr, exprs, exprs, combine_call hcall, hexpr, Form.expr,
      atom_identifier hgroup, Expr.erase]
  | .unary o e, _, .unary ho h, hliterals => by
    obtain ⟨hclean, hexpr⟩ := Expr.Like.decode e _ h hliterals
    refine ⟨⟨ho.clean nofun, hclean, trivial⟩, ?_⟩
    have hkind : Kind.ofLexeme o.lexeme ∈ Operators.unaryKinds := ho.ofLexeme_eq ▸ ho.2
    rw [Expr.form, Form.expr, exprs, exprs, combine_unary hkind, hexpr, Expr.erase, ho.erase_eq]
  | .binary l o r, _, .binary hl ho hr, hliterals => by
    obtain ⟨hleft, hright⟩ := List.forall_mem_append.1 hliterals
    obtain ⟨hcleanl, hexprl⟩ := Expr.Like.decode l _ hl hleft
    obtain ⟨hcleanr, hexprr⟩ := Expr.Like.decode r _ hr hright
    refine ⟨⟨ho.clean nofun, hcleanl, hcleanr, trivial⟩, ?_⟩
    have hkind : Kind.ofLexeme o.lexeme ∈ Operators.binaryKinds := ho.ofLexeme_eq ▸ ho.2
    rw [Expr.form, Form.expr, exprs, exprs, exprs, combine_binary hkind, hexprl, hexprr,
      Expr.erase, ho.erase_eq]
  | .logical l o r, _, .logical hl ho hr, hliterals => by
    obtain ⟨hleft, hright⟩ := List.forall_mem_append.1 hliterals
    obtain ⟨hcleanl, hexprl⟩ := Expr.Like.decode l _ hl hleft
    obtain ⟨hcleanr, hexprr⟩ := Expr.Like.decode r _ hr hright
    refine ⟨⟨ho.clean nofun, hcleanl, hcleanr, trivial⟩, ?_⟩
    have hkind : Kind.ofLexeme o.lexeme ∈ [Kind.kwOr, .kwAnd] := ho.ofLexeme_eq ▸ ho.2
    rw [Expr.form, Form.expr, exprs, exprs, exprs, combine_logical hkind, hexprl, hexprr,
      Expr.erase, ho.erase_eq]
  | .name t, _, .name ht, _ => by
    refine ⟨clean_identifier ht.identifier, ?_⟩
    rw [Expr.form, Form.expr, atom_identifier ht.identifier, Expr.erase, ht.erase_eq]
  | .assign t e, _, .assign ht h, hliterals => by
    obtain ⟨hclean, hexpr⟩ := Expr.Like.decode e _ h hliterals
    have hname : (Form.word t.lexeme).expr = .name (.ofLexeme t.lexeme) :=
      atom_identifier ht.identifier
    refine ⟨⟨clean_heading (by decide), ht.clean nofun, hclean, trivial⟩, ?_⟩
    rw [Expr.form, Form.expr, exprs, exprs, exprs, hname, hexpr, Expr.erase, ht.erase_eq]
    rfl
  | .call f p es, _, .call hf _ hes, hliterals => by
    obtain ⟨hcallee, harguments⟩ := List.forall_mem_append.1 hliterals
    obtain ⟨hclean, hexpr⟩ := Expr.Like.decode f _ hf hcallee
    obtain ⟨hcleans, hexprs⟩ := Expr.decode_all es _ hes harguments
    refine ⟨⟨hclean, hcleans⟩, ?_⟩
    rw [Expr.form, Form.expr, combine_call (hf.first_notMem hcallee), hexpr, hexprs, Expr.erase]
  | .missing, _, .missing h, _ | .unknown, _, .unknown h, _ | .stray _, _, .stray h _, _ => h.elim

theorem Expr.decode_all : ∀ es es' : List Expr, List.Forall₂ (Expr.Like Suits False) es es' →
    (∀ v ∈ Expr.literalsAll es, v.Legible) →
    CleanAll (Expr.forms es) ∧ exprs (Expr.forms es) = Expr.eraseAll es
  | [], _, .nil, _ => ⟨trivial, rfl⟩
  | e :: es, _, .cons h hs, hliterals => by
    obtain ⟨hfirst, hrest⟩ := List.forall_mem_append.1 hliterals
    obtain ⟨hclean, hexpr⟩ := Expr.Like.decode e _ h hfirst
    obtain ⟨hcleans, hexprs⟩ := Expr.decode_all es _ hs hrest
    exact ⟨⟨hclean, hcleans⟩, congrArg₂ List.cons hexpr hexprs⟩

end

theorem decode_params {ps ps' : List Token} (h : List.Forall₂ (Suits .declared) ps ps') :
    (Form.list ((ps.map (·.lexeme)).map .word)).Clean ∧
      ((ps.map (·.lexeme)).map Form.word).map (fun p => Token.ofLexeme p.text) =
        ps.map Token.erase := by
  induction h with
  | nil => exact ⟨trivial, rfl⟩
  | cons hp _ ih => exact ⟨⟨hp.clean nofun, ih.1⟩, congrArg₂ List.cons hp.erase_eq.symm ih.2⟩

mutual

/-- **The form of a statement is read back** as what erasing leaves of it. -/
theorem Stmt.Like.decode : ∀ s s' : Stmt, Stmt.Like Suits False s s' →
    (∀ v ∈ s.literals, v.Legible) → s.form.Clean ∧ s.form.stmt = s.erase
  | .expression e, _, .expression h, hliterals => by
    obtain ⟨hclean, hexpr⟩ := Expr.Like.decode e _ h hliterals
    exact ⟨⟨clean_heading (by decide), hclean, trivial⟩, congrArg Stmt.expression hexpr⟩
  | .print e, _, .print h, hliterals => by
    obtain ⟨hclean, hexpr⟩ := Expr.Like.decode e _ h hliterals
    exact ⟨⟨clean_heading (by decide), hclean, trivial⟩, congrArg Stmt.print hexpr⟩
  | .var t none, _, .var ht, _ => by
    refine ⟨⟨clean_heading (by decide), ht.clean nofun, trivial⟩, ?_⟩
    rw [Stmt.erase, ht.erase_eq]
    rfl
  | .var t (some e), _, .varInitial ht h, hliterals => by
    obtain ⟨hclean, hexpr⟩ := Expr.Like.decode e _ h hliterals
    refine ⟨⟨clean_heading (by decide), ht.clean nofun, hclean, trivial⟩, ?_⟩
    rw [Stmt.erase, ht.erase_eq, ← hexpr]
    rfl
  | .block ss, _, .block h, hliterals => by
    obtain ⟨hcleans, hstmts⟩ := Stmt.decode_all ss _ h hliterals
    exact ⟨⟨clean_heading (by decide), hcleans⟩, congrArg Stmt.block hstmts⟩
  | .branch e y none, _, .branch he hy, hliterals => by
    obtain ⟨htest, hyes⟩ := List.forall_mem_append.1 hliterals
    obtain ⟨hclean, hexpr⟩ := Expr.Like.decode e _ he htest
    obtain ⟨hcleany, hstmty⟩ := Stmt.Like.decode y _ hy hyes
    refine ⟨⟨clean_heading (by decide), hclean, hcleany, trivial⟩, ?_⟩
    rw [Stmt.erase, ← hexpr, ← hstmty]
    rfl
  | .branch e y (some n), _, .branchElse he hy hn, hliterals => by
    obtain ⟨htest, hbranches⟩ := List.forall_mem_append.1 hliterals
    obtain ⟨hyes, hno⟩ := List.forall_mem_append.1 hbranches
    obtain ⟨hclean, hexpr⟩ := Expr.Like.decode e _ he htest
    obtain ⟨hcleany, hstmty⟩ := Stmt.Like.decode y _ hy hyes
    obtain ⟨hcleann, hstmtn⟩ := Stmt.Like.decode n _ hn hno
    refine ⟨⟨clean_heading (by decide), hclean, hcleany, hcleann, trivial⟩, ?_⟩
    rw [Stmt.erase, ← hexpr, ← hstmty, ← hstmtn]
    rfl
  | .loop e s, _, .loop he hs, hliterals => by
    obtain ⟨htest, hbody⟩ := List.forall_mem_append.1 hliterals
    obtain ⟨hclean, hexpr⟩ := Expr.Like.decode e _ he htest
    obtain ⟨hcleans, hstmt⟩ := Stmt.Like.decode s _ hs hbody
    refine ⟨⟨clean_heading (by decide), hclean, hcleans, trivial⟩, ?_⟩
    rw [Stmt.erase, ← hexpr, ← hstmt]
    rfl
  | .function t ps ss, _, .function ht hps hss, hliterals => by
    obtain ⟨hcleanp, hparams⟩ := decode_params hps
    obtain ⟨hcleans, hstmts⟩ := Stmt.decode_all ss _ hss hliterals
    refine ⟨⟨clean_heading (by decide), ht.clean nofun, hcleanp, hcleans⟩, ?_⟩
    rw [Stmt.erase, ht.erase_eq, ← hparams, ← hstmts]
    rfl
  | .ret _ none, _, .ret _, _ => ⟨⟨clean_heading (by decide), trivial⟩, rfl⟩
  | .ret _ (some e), _, .retValue _ h, hliterals => by
    obtain ⟨hclean, hexpr⟩ := Expr.Like.decode e _ h hliterals
    refine ⟨⟨clean_heading (by decide), hclean, trivial⟩, ?_⟩
    rw [Stmt.erase, ← hexpr]
    rfl
  | .missing, _, .missing h, _ | .unknown, _, .unknown h, _ | .stray _, _, .stray h _, _ => h.elim

theorem Stmt.decode_all : ∀ ss ss' : List Stmt, List.Forall₂ (Stmt.Like Suits False) ss ss' →
    (∀ v ∈ Stmt.literalsAll ss, v.Legible) →
    CleanAll (Stmt.forms ss) ∧ stmts (Stmt.forms ss) = Stmt.eraseAll ss
  | [], _, .nil, _ => ⟨trivial, rfl⟩
  | s :: ss, _, .cons h hs, hliterals => by
    obtain ⟨hfirst, hrest⟩ := List.forall_mem_append.1 hliterals
    obtain ⟨hclean, hstmt⟩ := Stmt.Like.decode s _ h hfirst
    obtain ⟨hcleans, hstmts⟩ := Stmt.decode_all ss _ hs hrest
    exact ⟨⟨hclean, hcleans⟩, congrArg₂ List.cons hstmt hstmts⟩

end

end Treewalk
