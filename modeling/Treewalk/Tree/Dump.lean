import Treewalk.Tree

/-!
# The dump of a tree

A tree is dumped in prefix form, every part in parentheses behind the name
of its form: `-123 * (45.67)` becomes `(* (- 123) (group 45.67))`. A part is
dumped as what it is, wherever it stands; only the callee of a call has to
be an expression. Dumping fails at a hole or a part of no known form, and
where the tree is nested deeper than allowed.
-/

namespace Treewalk

/-- Why a tree has no dump. -/
inductive DumpFault where
  | malformed
  | tooDeep
  deriving DecidableEq, Repr

/-- A form and its parts in parentheses. -/
def enclosed (form : String) (parts : List String) : String :=
  "(" ++ " ".intercalate (form :: parts) ++ ")"

mutual

/-- The dump of an expression nested at most `depth` deep. -/
def Expr.dump : Nat → Expr → Except DumpFault String
  | 0, _ => .error .tooDeep
  | depth + 1, e =>
    match e with
    | .literal value => return value.text
    | .grouping inner => return enclosed "group" [← inner.dump depth]
    | .unary operator right => return enclosed operator.lexeme [← right.dump depth]
    | .binary left operator right =>
      return enclosed operator.lexeme [← left.dump depth, ← right.dump depth]
    | .logical left operator right =>
      return enclosed operator.lexeme [← left.dump depth, ← right.dump depth]
    | .name token => return token.lexeme
    | .assign name value => return enclosed ("= " ++ name.lexeme) [← value.dump depth]
    | .call (.stray _) _ _ => .error .malformed
    | .call callee _ arguments => do
      let form ← callee.dump depth
      return enclosed form (← arguments.mapM fun a => a.dump depth)
    | .missing => .error .malformed
    | .unknown => .error .malformed
    | .stray statement => statement.dump depth

/-- The dump of a statement nested at most `depth` deep. -/
def Stmt.dump : Nat → Stmt → Except DumpFault String
  | 0, _ => .error .tooDeep
  | depth + 1, s =>
    match s with
    | .expression inner => return enclosed ";" [← inner.dump depth]
    | .print inner => return enclosed "print" [← inner.dump depth]
    | .var name none => return enclosed ("var " ++ name.lexeme) []
    | .var name (some initial) =>
      return enclosed ("var " ++ name.lexeme) [← initial.dump depth]
    | .block body => return enclosed "block" (← body.mapM fun s => s.dump depth)
    | .branch condition yes none =>
      return enclosed "if" [← condition.dump depth, ← yes.dump depth]
    | .branch condition yes (some no) =>
      return enclosed "if" [← condition.dump depth, ← yes.dump depth, ← no.dump depth]
    | .loop condition body =>
      return enclosed "while" [← condition.dump depth, ← body.dump depth]
    | .function name params body =>
      let heading := "fun " ++ name.lexeme ++ " (" ++ " ".intercalate (params.map (·.lexeme)) ++ ")"
      return enclosed heading (← body.mapM fun s => s.dump depth)
    | .ret _ none => return enclosed "return" []
    | .ret _ (some value) => return enclosed "return" [← value.dump depth]
    | .missing => .error .malformed
    | .unknown => .error .malformed
    | .stray expression => expression.dump depth

end

end Treewalk
