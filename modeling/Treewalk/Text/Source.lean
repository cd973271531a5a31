/-!
# The text of a script

A script is stored as UTF-8. Every way to end a line (a line feed, a
carriage return, or both in this order) is read as one line feed.
-/

namespace Treewalk.Text

/-- Adds one character, where the flag says that a carriage return came
just before. -/
def addUnified : String × Bool → Char → String × Bool
  | (done, afterReturn), c =>
    if c = '\r' then (done.push '\n', true)
    else if c = '\n' && afterReturn then (done, false)
    else (done.push c, false)

/-- The text with all line ends unified. -/
def unifyNewlines (s : String) : String := (s.toList.foldl addUnified ("", false)).1

/-- The text that the bytes of a script hold; `none` if they are not
UTF-8. -/
def decode? (bytes : ByteArray) : Option String := (String.fromUTF8? bytes).map unifyNewlines

end Treewalk.Text
