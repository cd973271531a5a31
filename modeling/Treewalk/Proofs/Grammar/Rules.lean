import Treewalk.Tree

/-!
# The grammar

The rules of the language as relations between token lists and trees. A
phrase of expressions is given by its rule: chains of operators carry the
tree that nests to the left, assignments and prefix operators the one that
nests to the right. A statement also says whether it ends in an `if` that
could still take an `else`: a branch in front of an `else` must not, so
that an `else` belongs to the nearest `if`. Lists of arguments and
parameters have at most 255 entries, and a `return` stands inside a
function body. Nothing here mentions how a token list is read.
-/

namespace Treewalk

namespace Grammar

/-! ## Expressions -/

/-- The phrases of expressions, from loosest to tightest. -/
inductive Phrase where
  | assignment
  | logicOr
  | logicAnd
  | equality
  | comparison
  | term
  | factor
  | unary
  | call
  | primary
  deriving DecidableEq, Repr

/-- The phrases that are chains: `Chain p q operators node` says that a `p`
is a row of `q`s with `operators` between them, and `node` the tree of two
of them. -/
inductive Chain : Phrase → Phrase → List Kind → (Expr → Token → Expr → Expr) → Prop
  | logicOr : Chain .logicOr .logicAnd [.kwOr] .logical
  | logicAnd : Chain .logicAnd .equality [.kwAnd] .logical
  | equality : Chain .equality .comparison [.bangEqual, .equalEqual] .binary
  | comparison :
      Chain .comparison .term [.greater, .greaterEqual, .less, .lessEqual] .binary
  | term : Chain .term .factor [.minus, .plus] .binary
  | factor : Chain .factor .unary [.slash, .star] .binary

/-- An operator of a chain with the operand behind it. -/
structure Link where
  operator : Token
  tokens : List Token
  operand : Expr

/-- The tokens of a link. -/
def Link.all (l : Link) : List Token := l.operator :: l.tokens

/-- Parts with commas between them. -/
inductive Commas : List (List Token) → List Token → Prop
  | nil : Commas [] []
  | one {ts : List Token} : Commas [ts] ts
  | cons {ts us : List Token} {comma : Token} {parts : List (List Token)} :
      comma.kind = .comma → parts ≠ [] → Commas parts us → Commas (ts :: parts) (ts ++ comma :: us)

/-- The arguments of a call with the parentheses around them. -/
structure Arguments where
  opening : Token
  tokens : List Token
  closing : Token
  /-- Each argument with its tokens. -/
  parts : List (List Token × Expr)

namespace Arguments

/-- The tokens of an argument list. -/
def all (a : Arguments) : List Token := a.opening :: (a.tokens ++ [a.closing])

/-- The parentheses and commas stand where they have to. -/
structure Punctuated (a : Arguments) : Prop where
  opening : a.opening.kind = .leftParen
  closing : a.closing.kind = .rightParen
  commas : Commas (a.parts.map (·.1)) a.tokens
  length_le : a.parts.length ≤ 255

end Arguments

/-- The rules of expressions. -/
inductive Derives : Phrase → List Token → Expr → Prop
  /-- `IDENTIFIER "=" assignment` -/
  | assign {name equals : Token} {ts : List Token} {value : Expr} :
      name.kind = .identifier → equals.kind = .equal → Derives .assignment ts value →
      Derives .assignment (name :: equals :: ts) (.assign name value)
  /-- `logic_or` -/
  | assignment {ts : List Token} {e : Expr} : Derives .logicOr ts e → Derives .assignment ts e
  /-- `operand (operator operand)*` -/
  | chain {p q : Phrase} {operators : List Kind} {node : Expr → Token → Expr → Expr}
      {ts : List Token} {e : Expr} {links : List Link} :
      Chain p q operators node → Derives q ts e →
      (∀ l ∈ links, l.operator.kind ∈ operators) → (∀ l ∈ links, Derives q l.tokens l.operand) →
      Derives p (ts ++ links.flatMap Link.all)
        (links.foldl (fun left l => node left l.operator l.operand) e)
  /-- `("!" | "-") unary` -/
  | unary {operator : Token} {ts : List Token} {e : Expr} :
      operator.kind = .bang ∨ operator.kind = .minus → Derives .unary ts e →
      Derives .unary (operator :: ts) (.unary operator e)
  /-- `call` -/
  | operand {ts : List Token} {e : Expr} : Derives .call ts e → Derives .unary ts e
  /-- `primary ("(" arguments? ")")*` -/
  | call {ts : List Token} {callee : Expr} {lists : List Arguments} :
      Derives .primary ts callee → (∀ a ∈ lists, a.Punctuated) →
      (∀ a ∈ lists, ∀ p ∈ a.parts, Derives .assignment p.1 p.2) →
      Derives .call (ts ++ lists.flatMap Arguments.all)
        (lists.foldl (fun f a => .call f a.closing (a.parts.map (·.2))) callee)
  | false {t : Token} : t.kind = .kwFalse → Derives .primary [t] (.literal (.bool false))
  | true {t : Token} : t.kind = .kwTrue → Derives .primary [t] (.literal (.bool true))
  | nil {t : Token} : t.kind = .kwNil → Derives .primary [t] (.literal .nil)
  | number {t : Token} : t.kind = .number → Derives .primary [t] (.literal t.literal)
  | string {t : Token} : t.kind = .string → Derives .primary [t] (.literal t.literal)
  | name {t : Token} : t.kind = .identifier → Derives .primary [t] (.name t)
  | grouping {opening closing : Token} {ts : List Token} {e : Expr} :
      opening.kind = .leftParen → Derives .assignment ts e → closing.kind = .rightParen →
      Derives .primary (opening :: (ts ++ [closing])) (.grouping e)

/-- `expression` -/
abbrev DerivesExpr (ts : List Token) (e : Expr) : Prop := Derives .assignment ts e

/-! ## Clauses -/

/-- A part that may be left out. -/
inductive Optional {α : Type} (item : List Token → α → Prop) : List Token → Option α → Prop
  | none : Optional item [] none
  | some {ts : List Token} {a : α} : item ts a → Optional item ts (some a)

/-- `"var" IDENTIFIER ("=" expression)? ";"` -/
inductive VarDecl : List Token → Stmt → Prop
  | plain {keyword name semicolon : Token} :
      keyword.kind = .kwVar → name.kind = .identifier → semicolon.kind = .semicolon →
      VarDecl [keyword, name, semicolon] (.var name none)
  | initial {keyword name equals semicolon : Token} {ts : List Token} {e : Expr} :
      keyword.kind = .kwVar → name.kind = .identifier → equals.kind = .equal →
      DerivesExpr ts e → semicolon.kind = .semicolon →
      VarDecl (keyword :: name :: equals :: (ts ++ [semicolon])) (.var name (some e))

/-- `expression ";"` -/
inductive ExprStmt : List Token → Stmt → Prop
  | mk {ts : List Token} {e : Expr} {semicolon : Token} :
      DerivesExpr ts e → semicolon.kind = .semicolon →
      ExprStmt (ts ++ [semicolon]) (.expression e)

/-- The first clause of a `for`. -/
inductive Initial : List Token → Option Stmt → Prop
  | none {semicolon : Token} : semicolon.kind = .semicolon → Initial [semicolon] none
  | var {ts : List Token} {s : Stmt} : VarDecl ts s → Initial ts (some s)
  | expression {ts : List Token} {s : Stmt} : ExprStmt ts s → Initial ts (some s)

/-- What a `for` stands for. -/
def forTree : Option Stmt → Option Expr → Option Expr → Stmt → Stmt
  | none, none, none, body => .loop (.literal (.bool true)) body
  | none, none, some step, body =>
    .loop (.literal (.bool true)) (.block [body, .expression step])
  | none, some condition, none, body => .loop condition body
  | none, some condition, some step, body => .loop condition (.block [body, .expression step])
  | some initial, none, none, body => .block [initial, .loop (.literal (.bool true)) body]
  | some initial, none, some step, body =>
    .block [initial, .loop (.literal (.bool true)) (.block [body, .expression step])]
  | some initial, some condition, none, body => .block [initial, .loop condition body]
  | some initial, some condition, some step, body =>
    .block [initial, .loop condition (.block [body, .expression step])]

/-! ## Statements and declarations -/

/-- What a statement is read as. -/
inductive Form where
  | declaration
  /-- A statement; `dangling` if it ends in an `if` without `else`. -/
  | statement (dangling : Bool)
  deriving DecidableEq, Repr

/-- The rules of declarations and statements. The flag says whether they
stand inside a function body. -/
inductive DerivesStmt : Bool → Form → List Token → Stmt → Prop
  /-- `"fun" IDENTIFIER "(" parameters? ")" "{" declaration* "}"` -/
  | function {inside : Bool} {keyword name opening closing brace endBrace : Token}
      {ts : List Token} {params : List Token} {body : List (List Token × Stmt)} :
      keyword.kind = .kwFun → name.kind = .identifier → opening.kind = .leftParen →
      (∀ p ∈ params, p.kind = .identifier) → Commas (params.map ([·])) ts →
      params.length ≤ 255 → closing.kind = .rightParen → brace.kind = .leftBrace →
      (∀ p ∈ body, DerivesStmt true .declaration p.1 p.2) → endBrace.kind = .rightBrace →
      DerivesStmt inside .declaration
        (keyword :: name :: opening :: (ts ++ closing :: brace ::
          (body.flatMap (·.1) ++ [endBrace])))
        (.function name params (body.map (·.2)))
  | var {inside : Bool} {ts : List Token} {s : Stmt} :
      VarDecl ts s → DerivesStmt inside .declaration ts s
  | statement {inside dangling : Bool} {ts : List Token} {s : Stmt} :
      DerivesStmt inside (.statement dangling) ts s → DerivesStmt inside .declaration ts s
  /-- `"if" "(" expression ")" statement` -/
  | branch {inside dangling : Bool} {keyword opening closing : Token} {cs ts : List Token}
      {condition : Expr} {yes : Stmt} :
      keyword.kind = .kwIf → opening.kind = .leftParen → DerivesExpr cs condition →
      closing.kind = .rightParen → DerivesStmt inside (.statement dangling) ts yes →
      DerivesStmt inside (.statement true) (keyword :: opening :: (cs ++ closing :: ts))
        (.branch condition yes none)
  /-- `"if" "(" expression ")" statement "else" statement` -/
  | branchElse {inside dangling : Bool} {keyword opening closing keywordElse : Token}
      {cs ts us : List Token} {condition : Expr} {yes no : Stmt} :
      keyword.kind = .kwIf → opening.kind = .leftParen → DerivesExpr cs condition →
      closing.kind = .rightParen → DerivesStmt inside (.statement false) ts yes →
      keywordElse.kind = .kwElse → DerivesStmt inside (.statement dangling) us no →
      DerivesStmt inside (.statement dangling)
        (keyword :: opening :: (cs ++ closing :: (ts ++ keywordElse :: us)))
        (.branch condition yes (some no))
  /-- `"while" "(" expression ")" statement` -/
  | loop {inside dangling : Bool} {keyword opening closing : Token} {cs ts : List Token}
      {condition : Expr} {body : Stmt} :
      keyword.kind = .kwWhile → opening.kind = .leftParen → DerivesExpr cs condition →
      closing.kind = .rightParen → DerivesStmt inside (.statement dangling) ts body →
      DerivesStmt inside (.statement dangling) (keyword :: opening :: (cs ++ closing :: ts))
        (.loop condition body)
  /-- `"for" "(" (varDecl | exprStmt | ";") expression? ";" expression? ")" statement` -/
  | forLoop {inside dangling : Bool} {keyword opening semicolon closing : Token}
      {is cs ss ts : List Token} {initial : Option Stmt} {condition step : Option Expr}
      {body : Stmt} :
      keyword.kind = .kwFor → opening.kind = .leftParen → Initial is initial →
      Optional DerivesExpr cs condition → semicolon.kind = .semicolon →
      Optional DerivesExpr ss step → closing.kind = .rightParen →
      DerivesStmt inside (.statement dangling) ts body →
      DerivesStmt inside (.statement dangling)
        (keyword :: opening :: (is ++ (cs ++ semicolon :: (ss ++ closing :: ts))))
        (forTree initial condition step body)
  /-- `"print" expression ";"` -/
  | print {inside : Bool} {keyword semicolon : Token} {ts : List Token} {e : Expr} :
      keyword.kind = .kwPrint → DerivesExpr ts e → semicolon.kind = .semicolon →
      DerivesStmt inside (.statement false) (keyword :: (ts ++ [semicolon])) (.print e)
  /-- `"return" expression? ";"`, inside a function body only -/
  | ret {keyword semicolon : Token} {ts : List Token} {e : Option Expr} :
      keyword.kind = .kwReturn → Optional DerivesExpr ts e → semicolon.kind = .semicolon →
      DerivesStmt true (.statement false) (keyword :: (ts ++ [semicolon])) (.ret keyword e)
  /-- `"{" declaration* "}"` -/
  | block {inside : Bool} {brace endBrace : Token} {body : List (List Token × Stmt)} :
      brace.kind = .leftBrace → (∀ p ∈ body, DerivesStmt inside .declaration p.1 p.2) →
      endBrace.kind = .rightBrace →
      DerivesStmt inside (.statement false) (brace :: (body.flatMap (·.1) ++ [endBrace]))
        (.block (body.map (·.2)))
  | expression {inside : Bool} {ts : List Token} {s : Stmt} :
      ExprStmt ts s → DerivesStmt inside (.statement false) ts s

/-- `program`: declarations outside all functions. -/
def Program (ts : List Token) (program : List Stmt) : Prop :=
  ∃ parts : List (List Token × Stmt),
    (∀ p ∈ parts, DerivesStmt false .declaration p.1 p.2) ∧
      ts = parts.flatMap (·.1) ∧ program = parts.map (·.2)

end Grammar

end Treewalk
