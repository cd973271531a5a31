import Treewalk.Tree

/-!
# What a tree contains

Three things that running a tree depends on: the values its literals stand
for, the names it declares in the scope it runs in, and the `return`s in it
that no function of its own takes. A block keeps its names to itself, and a
function takes the `return`s of its body; nothing else stands in the way of
either.
-/

namespace Treewalk

/-- The scope that a value keeps: the one a function was declared in. -/
def Value.scope? : Value → Option ScopeId
  | .function (.closure _ _ _ scope) => some scope
  | _ => none

/-! ## Literals -/

mutual

/-- The literal values of an expression. -/
def Expr.literals : Expr → List Value
  | .literal v => [v]
  | .grouping e => e.literals
  | .unary _ e => e.literals
  | .binary l _ r => l.literals ++ r.literals
  | .logical l _ r => l.literals ++ r.literals
  | .name _ => []
  | .assign _ e => e.literals
  | .call f _ es => f.literals ++ Expr.literalsAll es
  | .missing => []
  | .unknown => []
  | .stray s => s.literals

/-- The literal values of expressions. -/
def Expr.literalsAll : List Expr → List Value
  | [] => []
  | e :: es => e.literals ++ Expr.literalsAll es

/-- The literal values of a statement. -/
def Stmt.literals : Stmt → List Value
  | .expression e => e.literals
  | .print e => e.literals
  | .var _ none => []
  | .var _ (some e) => e.literals
  | .block ss => Stmt.literalsAll ss
  | .branch e y none => e.literals ++ y.literals
  | .branch e y (some n) => e.literals ++ (y.literals ++ n.literals)
  | .loop e s => e.literals ++ s.literals
  | .function _ _ ss => Stmt.literalsAll ss
  | .ret _ none => []
  | .ret _ (some e) => e.literals
  | .missing => []
  | .unknown => []
  | .stray e => e.literals

/-- The literal values of statements. -/
def Stmt.literalsAll : List Stmt → List Value
  | [] => []
  | s :: ss => s.literals ++ Stmt.literalsAll ss

end

@[simp] theorem Expr.literalsAll_eq_flatMap (es : List Expr) :
    Expr.literalsAll es = es.flatMap Expr.literals := by
  induction es with
  | nil => rfl
  | cons e es ih => rw [Expr.literalsAll, ih, List.flatMap_cons]

@[simp] theorem Stmt.literalsAll_eq_flatMap (ss : List Stmt) :
    Stmt.literalsAll ss = ss.flatMap Stmt.literals := by
  induction ss with
  | nil => rfl
  | cons s ss ih => rw [Stmt.literalsAll, ih, List.flatMap_cons]

/-- Expressions none of whose literals is a declared function. -/
def Expr.Plain (e : Expr) : Prop := ∀ v ∈ e.literals, v.scope? = none

/-- Statements none of whose literals is a declared function. -/
def Stmt.Plain (s : Stmt) : Prop := ∀ v ∈ s.literals, v.scope? = none

/-! ## Declared names -/

/-- The names that a statement declares in the scope it runs in: those of
variables and functions that stand in no block and in no function of it. -/
def Stmt.declared : Stmt → List String
  | .var t _ => [t.lexeme]
  | .function t _ _ => [t.lexeme]
  | .branch _ y none => y.declared
  | .branch _ y (some n) => y.declared ++ n.declared
  | .loop _ s => s.declared
  | _ => []

/-! ## Returns -/

mutual

/-- The keywords of the `return`s in an expression that stand in no function
of it. -/
def Expr.returns : Expr → List Token
  | .literal _ => []
  | .grouping e => e.returns
  | .unary _ e => e.returns
  | .binary l _ r => l.returns ++ r.returns
  | .logical l _ r => l.returns ++ r.returns
  | .name _ => []
  | .assign _ e => e.returns
  | .call f _ es => f.returns ++ Expr.returnsAll es
  | .missing => []
  | .unknown => []
  | .stray s => s.returns

/-- The keywords of the `return`s in expressions. -/
def Expr.returnsAll : List Expr → List Token
  | [] => []
  | e :: es => e.returns ++ Expr.returnsAll es

/-- The keywords of the `return`s in a statement that stand in no function of
it, in the order they stand there. -/
def Stmt.returns : Stmt → List Token
  | .expression e => e.returns
  | .print e => e.returns
  | .var _ none => []
  | .var _ (some e) => e.returns
  | .block ss => Stmt.returnsAll ss
  | .branch e y none => e.returns ++ y.returns
  | .branch e y (some n) => e.returns ++ (y.returns ++ n.returns)
  | .loop e s => e.returns ++ s.returns
  | .function _ _ _ => []
  | .ret k none => [k]
  | .ret k (some e) => k :: e.returns
  | .missing => []
  | .unknown => []
  | .stray e => e.returns

/-- The keywords of the `return`s in statements. -/
def Stmt.returnsAll : List Stmt → List Token
  | [] => []
  | s :: ss => s.returns ++ Stmt.returnsAll ss

end

theorem Expr.returnsAll_eq_flatMap (es : List Expr) :
    Expr.returnsAll es = es.flatMap Expr.returns := by
  induction es with
  | nil => rfl
  | cons e es ih => rw [Expr.returnsAll, ih, List.flatMap_cons]

theorem Stmt.returnsAll_eq_flatMap (ss : List Stmt) :
    Stmt.returnsAll ss = ss.flatMap Stmt.returns := by
  induction ss with
  | nil => rfl
  | cons s ss ih => rw [Stmt.returnsAll, ih, List.flatMap_cons]

theorem Expr.returns_call (f : Expr) (paren : Token) (es : List Expr) :
    (Expr.call f paren es).returns = f.returns ++ es.flatMap Expr.returns := by
  rw [Expr.returns, Expr.returnsAll_eq_flatMap]

theorem Stmt.returns_block (ss : List Stmt) :
    (Stmt.block ss).returns = ss.flatMap Stmt.returns := by
  rw [Stmt.returns, Stmt.returnsAll_eq_flatMap]

end Treewalk
