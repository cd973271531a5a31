/-!
# Limits

How deep reading, running and dumping may nest, and how often a loop may go
round before it counts as endless.
-/

namespace Treewalk

/-- The bounds a run is given. -/
structure Limits where
  /-- How many steps of reading or evaluation may be nested. -/
  depth : Nat := 10000
  /-- How often a loop may go round. -/
  rounds : Nat := 1 <<< 62
  deriving DecidableEq, Repr

/-- How many levels of a tree may be dumped: each takes the room of four
steps. -/
def Limits.dumpDepth (l : Limits) : Nat := l.depth / 4

end Treewalk
