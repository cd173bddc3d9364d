import TraceTimeline.Command.DocumentFile
import TraceTimeline.Timeline.Balance

/-!
# Checking a document

`checkDocument` reads a timeline from a file and checks that it is balanced. What it is about to do is printed
first, what it found last.
-/

namespace TraceTimeline

inductive CheckError where
  | unreadable (error : DocumentError)
  | unbalanced (path : Path) (error : BalanceError)
  deriving Repr

def CheckError.headline : CheckError → String
  | unreadable error => error.message
  | unbalanced path _ => "Inconsistent timeline " ++ path.text

/-- What is printed of a balanced timeline. -/
def TimelineStats.report (stats : TimelineStats) : String :=
  "✓ Valid timeline JSON\n" ++
  "  Events: " ++ toString stats.events ++ "\n" ++
  "  Spans: " ++ toString stats.spans ++ "\n" ++
  "  Application spans: " ++ toString stats.applicationSpans ++ "\n" ++
  "  Ranks: " ++ toString stats.ranks ++ "\n"

variable {m : Type → Type} [Monad m] [Surroundings m]

/-- Checks the document in a file. -/
def checkDocument (path : Path) : ExceptT CheckError m Unit := do
  Surroundings.print (m := m) ("Validating timeline: " ++ path.text ++ "\n")
  let timeline ← (Timeline.load path).adapt .unreadable
  match timeline.check with
  | .ok stats => Surroundings.print (m := m) stats.report
  | .error error => throw (.unbalanced path error)

end TraceTimeline
