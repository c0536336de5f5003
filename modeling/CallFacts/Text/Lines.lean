/-!
# Lines of a text

A line ends at a line feed; one carriage return directly before that line feed belongs to the end
of the line. What follows the last line feed is a line if it is not empty, and it keeps a carriage
return.
-/

namespace CallFacts.Text

/-- The line without one carriage return at its end. -/
def dropReturn (line : List Char) : List Char :=
  if line.getLast? = some '\r' then line.dropLast else line

/-- Every piece but the last was ended by a line feed. -/
def linesOfPieces : List (List Char) → List (List Char)
  | [] => []
  | [last] => if last.isEmpty then [] else [last]
  | piece :: rest => dropReturn piece :: linesOfPieces rest

/-- The lines of a text. -/
def lines (text : List Char) : List (List Char) := linesOfPieces (text.splitOn '\n')

end CallFacts.Text
