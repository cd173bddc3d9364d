/-!
# Lines

A line ends at a newline. One carriage return right before that newline belongs to the line end; any
other carriage return is part of the line. What stands after the last newline is a line of its own
unless it is empty. The rule is stated for any alphabet, because a text is split into lines by its
characters and a stream by its bytes.
-/

namespace TraceTimeline.Text

variable {α : Type} [BEq α]

def dropReturn (carriageReturn : α) (line : List α) : List α :=
  if line.getLast? == some carriageReturn then line.dropLast else line

/-- The lines of a text, without their ends. -/
def linesBy (newline carriageReturn : α) (s : List α) : List (List α) :=
  let pieces := s.splitOn newline
  let rest := pieces.getLastD []
  pieces.dropLast.map (dropReturn carriageReturn) ++ (if rest.isEmpty then [] else [rest])

def lines (s : List Char) : List (List Char) :=
  linesBy '\n' '\r' s

end TraceTimeline.Text
