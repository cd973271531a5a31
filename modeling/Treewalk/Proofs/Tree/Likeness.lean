import Treewalk.Tree
import Mathlib.Data.List.Forall2

/-!
# Trees that differ in their tokens only

Two trees are alike if they have the same shape and the same literals, and
their tokens are related place by place. What the relation asks may depend
on the role a token plays, so that one notion serves both to compare a tree
with the same tree from another place of a text and to say that the
operators of a single tree are of the right kinds. The second use compares a
tree with itself.
-/

namespace Treewalk

/-- What a token is there for in a tree. -/
inductive Role where
  | unary
  | binary
  /-- A connective. -/
  | connective
  /-- A variable that is read or assigned to. -/
  | name
  /-- A variable, a function or a parameter, where it is declared. -/
  | declared
  /-- The parenthesis that a call is blamed on. -/
  | paren
  | keyword
  deriving DecidableEq, Repr

mutual

/-- Expressions of the same shape with related tokens. `holes` says whether
places that are no program count as alike. -/
inductive Expr.Like (R : Role → Token → Token → Prop) (holes : Prop) : Expr → Expr → Prop
  | literal (value : Value) : Expr.Like R holes (.literal value) (.literal value)
  | grouping {e e' : Expr} : Expr.Like R holes e e' →
      Expr.Like R holes (.grouping e) (.grouping e')
  | unary {o o' : Token} {e e' : Expr} : R .unary o o' → Expr.Like R holes e e' →
      Expr.Like R holes (.unary o e) (.unary o' e')
  | binary {l l' r r' : Expr} {o o' : Token} : Expr.Like R holes l l' → R .binary o o' →
      Expr.Like R holes r r' → Expr.Like R holes (.binary l o r) (.binary l' o' r')
  | logical {l l' r r' : Expr} {o o' : Token} : Expr.Like R holes l l' → R .connective o o' →
      Expr.Like R holes r r' → Expr.Like R holes (.logical l o r) (.logical l' o' r')
  | name {t t' : Token} : R .name t t' → Expr.Like R holes (.name t) (.name t')
  | assign {t t' : Token} {e e' : Expr} : R .name t t' → Expr.Like R holes e e' →
      Expr.Like R holes (.assign t e) (.assign t' e')
  | call {f f' : Expr} {p p' : Token} {es es' : List Expr} : Expr.Like R holes f f' →
      R .paren p p' → List.Forall₂ (Expr.Like R holes) es es' →
      Expr.Like R holes (.call f p es) (.call f' p' es')
  | missing : holes → Expr.Like R holes .missing .missing
  | unknown : holes → Expr.Like R holes .unknown .unknown
  | stray {s s' : Stmt} : holes → Stmt.Like R holes s s' →
      Expr.Like R holes (.stray s) (.stray s')

/-- Statements of the same shape with related tokens. -/
inductive Stmt.Like (R : Role → Token → Token → Prop) (holes : Prop) : Stmt → Stmt → Prop
  | expression {e e' : Expr} : Expr.Like R holes e e' →
      Stmt.Like R holes (.expression e) (.expression e')
  | print {e e' : Expr} : Expr.Like R holes e e' → Stmt.Like R holes (.print e) (.print e')
  | var {t t' : Token} : R .declared t t' → Stmt.Like R holes (.var t none) (.var t' none)
  | varInitial {t t' : Token} {e e' : Expr} : R .declared t t' → Expr.Like R holes e e' →
      Stmt.Like R holes (.var t (some e)) (.var t' (some e'))
  | block {ss ss' : List Stmt} : List.Forall₂ (Stmt.Like R holes) ss ss' →
      Stmt.Like R holes (.block ss) (.block ss')
  | branch {e e' : Expr} {y y' : Stmt} : Expr.Like R holes e e' → Stmt.Like R holes y y' →
      Stmt.Like R holes (.branch e y none) (.branch e' y' none)
  | branchElse {e e' : Expr} {y y' n n' : Stmt} : Expr.Like R holes e e' →
      Stmt.Like R holes y y' → Stmt.Like R holes n n' →
      Stmt.Like R holes (.branch e y (some n)) (.branch e' y' (some n'))
  | loop {e e' : Expr} {s s' : Stmt} : Expr.Like R holes e e' → Stmt.Like R holes s s' →
      Stmt.Like R holes (.loop e s) (.loop e' s')
  | function {t t' : Token} {ps ps' : List Token} {ss ss' : List Stmt} :
      R .declared t t' → List.Forall₂ (R .declared) ps ps' →
      List.Forall₂ (Stmt.Like R holes) ss ss' →
      Stmt.Like R holes (.function t ps ss) (.function t' ps' ss')
  | ret {k k' : Token} : R .keyword k k' → Stmt.Like R holes (.ret k none) (.ret k' none)
  | retValue {k k' : Token} {e e' : Expr} : R .keyword k k' → Expr.Like R holes e e' →
      Stmt.Like R holes (.ret k (some e)) (.ret k' (some e'))
  | missing : holes → Stmt.Like R holes .missing .missing
  | unknown : holes → Stmt.Like R holes .unknown .unknown
  | stray {e e' : Expr} : holes → Expr.Like R holes e e' →
      Stmt.Like R holes (.stray e) (.stray e')

end

/-! ## Changing the tokens of a tree -/

mutual

/-- The expression with every token changed. -/
def Expr.relabel (f : Token → Token) : Expr → Expr
  | .literal v => .literal v
  | .grouping e => .grouping (e.relabel f)
  | .unary o e => .unary (f o) (e.relabel f)
  | .binary l o r => .binary (l.relabel f) (f o) (r.relabel f)
  | .logical l o r => .logical (l.relabel f) (f o) (r.relabel f)
  | .name t => .name (f t)
  | .assign t e => .assign (f t) (e.relabel f)
  | .call g p es => .call (g.relabel f) (f p) (Expr.relabelAll f es)
  | .missing => .missing
  | .unknown => .unknown
  | .stray s => .stray (s.relabel f)

/-- The expressions with every token changed. -/
def Expr.relabelAll (f : Token → Token) : List Expr → List Expr
  | [] => []
  | e :: es => e.relabel f :: Expr.relabelAll f es

/-- The statement with every token changed. -/
def Stmt.relabel (f : Token → Token) : Stmt → Stmt
  | .expression e => .expression (e.relabel f)
  | .print e => .print (e.relabel f)
  | .var t none => .var (f t) none
  | .var t (some e) => .var (f t) (some (e.relabel f))
  | .block ss => .block (Stmt.relabelAll f ss)
  | .branch e y none => .branch (e.relabel f) (y.relabel f) none
  | .branch e y (some n) => .branch (e.relabel f) (y.relabel f) (some (n.relabel f))
  | .loop e s => .loop (e.relabel f) (s.relabel f)
  | .function t ps ss => .function (f t) (ps.map f) (Stmt.relabelAll f ss)
  | .ret k none => .ret (f k) none
  | .ret k (some e) => .ret (f k) (some (e.relabel f))
  | .missing => .missing
  | .unknown => .unknown
  | .stray e => .stray (e.relabel f)

/-- The statements with every token changed. -/
def Stmt.relabelAll (f : Token → Token) : List Stmt → List Stmt
  | [] => []
  | s :: ss => s.relabel f :: Stmt.relabelAll f ss

end

@[simp] theorem Expr.relabelAll_eq_map (f : Token → Token) (es : List Expr) :
    Expr.relabelAll f es = es.map (Expr.relabel f) := by
  induction es with
  | nil => rfl
  | cons e es ih => rw [Expr.relabelAll, ih, List.map_cons]

@[simp] theorem Stmt.relabelAll_eq_map (f : Token → Token) (ss : List Stmt) :
    Stmt.relabelAll f ss = ss.map (Stmt.relabel f) := by
  induction ss with
  | nil => rfl
  | cons s ss ih => rw [Stmt.relabelAll, ih, List.map_cons]

/-- Changing tokens by `f` on one side and by `g` on the other leads from one
notion of likeness to another. -/
structure Relabels (R R' : Role → Token → Token → Prop) (holes holes' : Prop)
    (f g : Token → Token) : Prop where
  token (r : Role) (t t' : Token) : R r t t' → R' r (f t) (g t')
  holes : holes → holes'

section

variable {R R' : Role → Token → Token → Prop} {holes holes' : Prop} {f g : Token → Token}

mutual

theorem Expr.like_relabel (hf : Relabels R R' holes holes' f g) : ∀ e e' : Expr,
    Expr.Like R holes e e' → Expr.Like R' holes' (e.relabel f) (e'.relabel g)
  | .literal _, _, .literal v => .literal v
  | .grouping e, _, .grouping h => .grouping (Expr.like_relabel hf e _ h)
  | .unary _ e, _, .unary ho h => .unary (hf.token _ _ _ ho) (Expr.like_relabel hf e _ h)
  | .binary l _ r, _, .binary hl ho hr =>
    .binary (Expr.like_relabel hf l _ hl) (hf.token _ _ _ ho) (Expr.like_relabel hf r _ hr)
  | .logical l _ r, _, .logical hl ho hr =>
    .logical (Expr.like_relabel hf l _ hl) (hf.token _ _ _ ho) (Expr.like_relabel hf r _ hr)
  | .name _, _, .name ht => .name (hf.token _ _ _ ht)
  | .assign _ e, _, .assign ht h => .assign (hf.token _ _ _ ht) (Expr.like_relabel hf e _ h)
  | .call c _ es, _, .call hc hp hes =>
    .call (Expr.like_relabel hf c _ hc) (hf.token _ _ _ hp) (Expr.forall₂_like_relabel hf es _ hes)
  | .missing, _, .missing h => .missing (hf.holes h)
  | .unknown, _, .unknown h => .unknown (hf.holes h)
  | .stray s, _, .stray h hs => .stray (hf.holes h) (Stmt.like_relabel hf s _ hs)

theorem Expr.forall₂_like_relabel (hf : Relabels R R' holes holes' f g) : ∀ es es' : List Expr,
    List.Forall₂ (Expr.Like R holes) es es' →
      List.Forall₂ (Expr.Like R' holes') (Expr.relabelAll f es) (Expr.relabelAll g es')
  | [], _, .nil => .nil
  | e :: es, _, .cons h hs =>
    .cons (Expr.like_relabel hf e _ h) (Expr.forall₂_like_relabel hf es _ hs)

/-- Trees stay alike when their tokens are changed to related ones. -/
theorem Stmt.like_relabel (hf : Relabels R R' holes holes' f g) : ∀ s s' : Stmt,
    Stmt.Like R holes s s' → Stmt.Like R' holes' (s.relabel f) (s'.relabel g)
  | .expression e, _, .expression h => .expression (Expr.like_relabel hf e _ h)
  | .print e, _, .print h => .print (Expr.like_relabel hf e _ h)
  | .var _ none, _, .var ht => .var (hf.token _ _ _ ht)
  | .var _ (some e), _, .varInitial ht h =>
    .varInitial (hf.token _ _ _ ht) (Expr.like_relabel hf e _ h)
  | .block ss, _, .block h => .block (Stmt.forall₂_like_relabel hf ss _ h)
  | .branch e y none, _, .branch he hy =>
    .branch (Expr.like_relabel hf e _ he) (Stmt.like_relabel hf y _ hy)
  | .branch e y (some n), _, .branchElse he hy hn =>
    .branchElse (Expr.like_relabel hf e _ he) (Stmt.like_relabel hf y _ hy)
      (Stmt.like_relabel hf n _ hn)
  | .loop e s, _, .loop he hs => .loop (Expr.like_relabel hf e _ he) (Stmt.like_relabel hf s _ hs)
  | .function _ _ ss, _, .function ht hps hss => .function (hf.token _ _ _ ht)
      (List.forall₂_map_left_iff.2 (List.forall₂_map_right_iff.2 (hps.imp (hf.token _))))
      (Stmt.forall₂_like_relabel hf ss _ hss)
  | .ret _ none, _, .ret hk => .ret (hf.token _ _ _ hk)
  | .ret _ (some e), _, .retValue hk h => .retValue (hf.token _ _ _ hk) (Expr.like_relabel hf e _ h)
  | .missing, _, .missing h => .missing (hf.holes h)
  | .unknown, _, .unknown h => .unknown (hf.holes h)
  | .stray e, _, .stray h he => .stray (hf.holes h) (Expr.like_relabel hf e _ he)

theorem Stmt.forall₂_like_relabel (hf : Relabels R R' holes holes' f g) : ∀ ss ss' : List Stmt,
    List.Forall₂ (Stmt.Like R holes) ss ss' →
      List.Forall₂ (Stmt.Like R' holes') (Stmt.relabelAll f ss) (Stmt.relabelAll g ss')
  | [], _, .nil => .nil
  | s :: ss, _, .cons h hs =>
    .cons (Stmt.like_relabel hf s _ h) (Stmt.forall₂_like_relabel hf ss _ hs)

end

end

mutual

@[simp] theorem Expr.relabel_id : ∀ e : Expr, e.relabel id = e
  | .literal _ => rfl
  | .grouping e => by rw [Expr.relabel, Expr.relabel_id e]
  | .unary _ e => by rw [Expr.relabel, Expr.relabel_id e]; rfl
  | .binary l _ r => by rw [Expr.relabel, Expr.relabel_id l, Expr.relabel_id r]; rfl
  | .logical l _ r => by rw [Expr.relabel, Expr.relabel_id l, Expr.relabel_id r]; rfl
  | .name _ => rfl
  | .assign _ e => by rw [Expr.relabel, Expr.relabel_id e]; rfl
  | .call g _ es => by rw [Expr.relabel, Expr.relabel_id g, Expr.relabelAll_id es]; rfl
  | .missing => rfl
  | .unknown => rfl
  | .stray s => by rw [Expr.relabel, Stmt.relabel_id s]

theorem Expr.relabelAll_id : ∀ es : List Expr, Expr.relabelAll id es = es
  | [] => rfl
  | e :: es => by rw [Expr.relabelAll, Expr.relabel_id e, Expr.relabelAll_id es]

@[simp] theorem Stmt.relabel_id : ∀ s : Stmt, s.relabel id = s
  | .expression e => by rw [Stmt.relabel, Expr.relabel_id e]
  | .print e => by rw [Stmt.relabel, Expr.relabel_id e]
  | .var _ none => rfl
  | .var _ (some e) => by rw [Stmt.relabel, Expr.relabel_id e]; rfl
  | .block ss => by rw [Stmt.relabel, Stmt.relabelAll_id ss]
  | .branch e y none => by rw [Stmt.relabel, Expr.relabel_id e, Stmt.relabel_id y]
  | .branch e y (some n) => by
    rw [Stmt.relabel, Expr.relabel_id e, Stmt.relabel_id y, Stmt.relabel_id n]
  | .loop e s => by rw [Stmt.relabel, Expr.relabel_id e, Stmt.relabel_id s]
  | .function _ ps ss => by rw [Stmt.relabel, List.map_id, Stmt.relabelAll_id ss]; rfl
  | .ret _ none => rfl
  | .ret _ (some e) => by rw [Stmt.relabel, Expr.relabel_id e]; rfl
  | .missing => rfl
  | .unknown => rfl
  | .stray e => by rw [Stmt.relabel, Expr.relabel_id e]

theorem Stmt.relabelAll_id : ∀ ss : List Stmt, Stmt.relabelAll id ss = ss
  | [] => rfl
  | s :: ss => by rw [Stmt.relabelAll, Stmt.relabel_id s, Stmt.relabelAll_id ss]

end

/-- Trees that are alike are alike for any weaker relation. -/
theorem Stmt.forall₂_like_imp {R R' : Role → Token → Token → Prop} {holes holes' : Prop}
    (hR : ∀ r t t', R r t t' → R' r t t') (hholes : holes → holes') {ss ss' : List Stmt}
    (h : List.Forall₂ (Stmt.Like R holes) ss ss') :
    List.Forall₂ (Stmt.Like R' holes') ss ss' := by
  have hsame : Relabels R R' holes holes' id id := ⟨hR, hholes⟩
  have hid := Stmt.forall₂_like_relabel hsame ss ss' h
  rwa [Stmt.relabelAll_id, Stmt.relabelAll_id] at hid

/-! ## The tokens of a tree -/

mutual

/-- The tokens of an expression. -/
def Expr.tokens : Expr → List Token
  | .literal _ => []
  | .grouping e => e.tokens
  | .unary o e => o :: e.tokens
  | .binary l o r => l.tokens ++ o :: r.tokens
  | .logical l o r => l.tokens ++ o :: r.tokens
  | .name t => [t]
  | .assign t e => t :: e.tokens
  | .call g p es => g.tokens ++ p :: Expr.tokensAll es
  | .missing => []
  | .unknown => []
  | .stray s => s.tokens

/-- The tokens of expressions. -/
def Expr.tokensAll : List Expr → List Token
  | [] => []
  | e :: es => e.tokens ++ Expr.tokensAll es

/-- The tokens of a statement. -/
def Stmt.tokens : Stmt → List Token
  | .expression e => e.tokens
  | .print e => e.tokens
  | .var t none => [t]
  | .var t (some e) => t :: e.tokens
  | .block ss => Stmt.tokensAll ss
  | .branch e y none => e.tokens ++ y.tokens
  | .branch e y (some n) => e.tokens ++ (y.tokens ++ n.tokens)
  | .loop e s => e.tokens ++ s.tokens
  | .function t ps ss => t :: (ps ++ Stmt.tokensAll ss)
  | .ret k none => [k]
  | .ret k (some e) => k :: e.tokens
  | .missing => []
  | .unknown => []
  | .stray e => e.tokens

/-- The tokens of statements. -/
def Stmt.tokensAll : List Stmt → List Token
  | [] => []
  | s :: ss => s.tokens ++ Stmt.tokensAll ss

end

section

variable {R : Role → Token → Token → Prop} {holes : Prop}

mutual

theorem Expr.like_self (hholes : holes) : ∀ e : Expr, (∀ t ∈ e.tokens, ∀ r, R r t t) →
    Expr.Like R holes e e
  | .literal v, _ => .literal v
  | .grouping e, h => .grouping (Expr.like_self hholes e h)
  | .unary _ e, h => by
    obtain ⟨ho, he⟩ := List.forall_mem_cons.1 h
    exact .unary (ho _) (Expr.like_self hholes e he)
  | .binary l _ r, h => by
    obtain ⟨hl, hrest⟩ := List.forall_mem_append.1 h
    obtain ⟨ho, hr⟩ := List.forall_mem_cons.1 hrest
    exact .binary (Expr.like_self hholes l hl) (ho _) (Expr.like_self hholes r hr)
  | .logical l _ r, h => by
    obtain ⟨hl, hrest⟩ := List.forall_mem_append.1 h
    obtain ⟨ho, hr⟩ := List.forall_mem_cons.1 hrest
    exact .logical (Expr.like_self hholes l hl) (ho _) (Expr.like_self hholes r hr)
  | .name _, h => .name ((List.forall_mem_cons.1 h).1 _)
  | .assign _ e, h => by
    obtain ⟨ht, he⟩ := List.forall_mem_cons.1 h
    exact .assign (ht _) (Expr.like_self hholes e he)
  | .call g _ es, h => by
    obtain ⟨hg, hrest⟩ := List.forall_mem_append.1 h
    obtain ⟨hp, hes⟩ := List.forall_mem_cons.1 hrest
    exact .call (Expr.like_self hholes g hg) (hp _) (Expr.forall₂_like_self hholes es hes)
  | .missing, _ => .missing hholes
  | .unknown, _ => .unknown hholes
  | .stray s, h => .stray hholes (Stmt.like_self hholes s h)

theorem Expr.forall₂_like_self (hholes : holes) : ∀ es : List Expr,
    (∀ t ∈ Expr.tokensAll es, ∀ r, R r t t) → List.Forall₂ (Expr.Like R holes) es es
  | [], _ => .nil
  | e :: es, h => by
    obtain ⟨he, hes⟩ := List.forall_mem_append.1 h
    exact .cons (Expr.like_self hholes e he) (Expr.forall₂_like_self hholes es hes)

/-- Trees are like themselves if their tokens are. -/
theorem Stmt.like_self (hholes : holes) : ∀ s : Stmt, (∀ t ∈ s.tokens, ∀ r, R r t t) →
    Stmt.Like R holes s s
  | .expression e, h => .expression (Expr.like_self hholes e h)
  | .print e, h => .print (Expr.like_self hholes e h)
  | .var _ none, h => .var ((List.forall_mem_cons.1 h).1 _)
  | .var _ (some e), h => by
    obtain ⟨ht, he⟩ := List.forall_mem_cons.1 h
    exact .varInitial (ht _) (Expr.like_self hholes e he)
  | .block ss, h => .block (Stmt.forall₂_like_self hholes ss h)
  | .branch e y none, h => by
    obtain ⟨he, hy⟩ := List.forall_mem_append.1 h
    exact .branch (Expr.like_self hholes e he) (Stmt.like_self hholes y hy)
  | .branch e y (some n), h => by
    obtain ⟨he, hrest⟩ := List.forall_mem_append.1 h
    obtain ⟨hy, hn⟩ := List.forall_mem_append.1 hrest
    exact .branchElse (Expr.like_self hholes e he) (Stmt.like_self hholes y hy)
      (Stmt.like_self hholes n hn)
  | .loop e s, h => by
    obtain ⟨he, hs⟩ := List.forall_mem_append.1 h
    exact .loop (Expr.like_self hholes e he) (Stmt.like_self hholes s hs)
  | .function _ ps ss, h => by
    obtain ⟨ht, hrest⟩ := List.forall_mem_cons.1 h
    obtain ⟨hps, hss⟩ := List.forall_mem_append.1 hrest
    exact .function (ht _) (List.forall₂_same.2 fun p hp => hps p hp _)
      (Stmt.forall₂_like_self hholes ss hss)
  | .ret _ none, h => .ret ((List.forall_mem_cons.1 h).1 _)
  | .ret _ (some e), h => by
    obtain ⟨hk, he⟩ := List.forall_mem_cons.1 h
    exact .retValue (hk _) (Expr.like_self hholes e he)
  | .missing, _ => .missing hholes
  | .unknown, _ => .unknown hholes
  | .stray e, h => .stray hholes (Expr.like_self hholes e h)

theorem Stmt.forall₂_like_self (hholes : holes) : ∀ ss : List Stmt,
    (∀ t ∈ Stmt.tokensAll ss, ∀ r, R r t t) → List.Forall₂ (Stmt.Like R holes) ss ss
  | [], _ => .nil
  | s :: ss, h => by
    obtain ⟨hs, hss⟩ := List.forall_mem_append.1 h
    exact .cons (Stmt.like_self hholes s hs) (Stmt.forall₂_like_self hholes ss hss)

end

end

/-! ## Trees with equal tokens are equal -/

theorem eq_of_forall₂ {α : Type} {P : α → α → Prop} (h : ∀ a b, P a b → a = b) {as bs : List α}
    (hs : List.Forall₂ P as bs) : as = bs := by
  rw [← List.forall₂_eq_eq_eq]
  exact hs.imp h

section

variable {R : Role → Token → Token → Prop} {holes : Prop}

mutual

theorem Expr.eq_of_like (hR : ∀ r t t', R r t t' → t = t') :
    ∀ e e' : Expr, Expr.Like R holes e e' → e = e'
  | .literal _, _, .literal _ => rfl
  | .grouping e, _, .grouping h => by rw [Expr.eq_of_like hR e _ h]
  | .unary _ e, _, .unary ho h => by rw [hR _ _ _ ho, Expr.eq_of_like hR e _ h]
  | .binary l _ r, _, .binary hl ho hr => by
    rw [Expr.eq_of_like hR l _ hl, hR _ _ _ ho, Expr.eq_of_like hR r _ hr]
  | .logical l _ r, _, .logical hl ho hr => by
    rw [Expr.eq_of_like hR l _ hl, hR _ _ _ ho, Expr.eq_of_like hR r _ hr]
  | .name _, _, .name ht => by rw [hR _ _ _ ht]
  | .assign _ e, _, .assign ht h => by rw [hR _ _ _ ht, Expr.eq_of_like hR e _ h]
  | .call f _ es, _, .call hf hp hes => by
    rw [Expr.eq_of_like hR f _ hf, hR _ _ _ hp, Expr.eq_of_forall₂_like hR es _ hes]
  | .missing, _, .missing _ => rfl
  | .unknown, _, .unknown _ => rfl
  | .stray s, _, .stray _ h => by rw [Stmt.eq_of_like hR s _ h]

theorem Expr.eq_of_forall₂_like (hR : ∀ r t t', R r t t' → t = t') :
    ∀ es es' : List Expr, List.Forall₂ (Expr.Like R holes) es es' → es = es'
  | [], _, .nil => rfl
  | e :: es, _, .cons h hs => by rw [Expr.eq_of_like hR e _ h, Expr.eq_of_forall₂_like hR es _ hs]

theorem Stmt.eq_of_like (hR : ∀ r t t', R r t t' → t = t') :
    ∀ s s' : Stmt, Stmt.Like R holes s s' → s = s'
  | .expression e, _, .expression h => by rw [Expr.eq_of_like hR e _ h]
  | .print e, _, .print h => by rw [Expr.eq_of_like hR e _ h]
  | .var _ none, _, .var ht => by rw [hR _ _ _ ht]
  | .var _ (some e), _, .varInitial ht h => by rw [hR _ _ _ ht, Expr.eq_of_like hR e _ h]
  | .block ss, _, .block h => by rw [Stmt.eq_of_forall₂_like hR ss _ h]
  | .branch e y none, _, .branch he hy => by
    rw [Expr.eq_of_like hR e _ he, Stmt.eq_of_like hR y _ hy]
  | .branch e y (some n), _, .branchElse he hy hn => by
    rw [Expr.eq_of_like hR e _ he, Stmt.eq_of_like hR y _ hy, Stmt.eq_of_like hR n _ hn]
  | .loop e s, _, .loop he hs => by rw [Expr.eq_of_like hR e _ he, Stmt.eq_of_like hR s _ hs]
  | .function _ _ ss, _, .function ht hps hss => by
    rw [hR _ _ _ ht, eq_of_forall₂ (hR _) hps, Stmt.eq_of_forall₂_like hR ss _ hss]
  | .ret _ none, _, .ret hk => by rw [hR _ _ _ hk]
  | .ret _ (some e), _, .retValue hk h => by rw [hR _ _ _ hk, Expr.eq_of_like hR e _ h]
  | .missing, _, .missing _ => rfl
  | .unknown, _, .unknown _ => rfl
  | .stray e, _, .stray _ h => by rw [Expr.eq_of_like hR e _ h]

theorem Stmt.eq_of_forall₂_like (hR : ∀ r t t', R r t t' → t = t') :
    ∀ ss ss' : List Stmt, List.Forall₂ (Stmt.Like R holes) ss ss' → ss = ss'
  | [], _, .nil => rfl
  | s :: ss, _, .cons h hs => by rw [Stmt.eq_of_like hR s _ h, Stmt.eq_of_forall₂_like hR ss _ hs]

end

end

end Treewalk
