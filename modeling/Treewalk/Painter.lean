/-!
# Painting

Reports may be shown in bold and in a colour. How a text is painted is up to
the place it is shown in, so a painter is handed to whatever writes reports.
-/

namespace Treewalk

/-- The colours of reports. -/
inductive Color where
  /-- For errors. -/
  | red
  /-- For warnings. -/
  | magenta
  deriving DecidableEq, Repr

/-- How a text is made bold and given a colour. -/
abbrev Painter := Color → String → String

namespace Painter

/-- The code that switches a terminal to a colour. -/
def code : Color → String
  | .red => "\x1b[31m"
  | .magenta => "\x1b[35m"

/-- The painter of a terminal. -/
def terminal : Painter := fun color text => "\x1b[1m" ++ code color ++ text ++ "\x1b[0m"

end Painter

end Treewalk
