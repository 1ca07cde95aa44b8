/-
Lines of a text. A line ends at a line feed, and a carriage return directly
before the line feed belongs to the ending. What follows the last line feed is a
line only if it is not empty.
-/
import ThreeAddress.Text.Blank

namespace ThreeAddress.Text

/-- A line without the carriage return that stood before its line feed. -/
def dropReturn (line : List Char) : List Char :=
  if line.getLast? = some '\r' then line.dropLast else line

/-- The lines of a text whose pieces between line feeds are given. -/
def linesOfPieces : List (List Char) → List (List Char)
  | [] => []
  | [last] => if last.isEmpty then [] else [last]
  | line :: rest => dropReturn line :: linesOfPieces rest

/-- The lines of a text. -/
def lines (text : List Char) : List (List Char) :=
  linesOfPieces (pieces (· == '\n') text)

end ThreeAddress.Text
