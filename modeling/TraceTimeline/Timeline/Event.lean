/-!
# Timelines

A timeline is a list of events. An event opens or closes a span on a track of a rank; the two events
of a span agree in rank, track, name and category.
-/

namespace TraceTimeline

/-- Whether an event is the first or the second of its span. -/
inductive Phase where
  | opens
  | closes
  deriving DecidableEq, Repr

/-- What is known of the operation behind a span. -/
structure Args where
  operation : Option String := none
  segment : Option UInt64 := none
  offset : Option UInt64 := none
  length : Option UInt64 := none
  deriving DecidableEq, Repr

/-- One end of a span, at a time in microseconds since 1970. -/
structure Event where
  name : String
  category : String
  timestamp : Float
  rank : UInt32
  track : UInt32
  phase : Phase
  args : Args
  deriving Repr

/-- Events in the order in which they are shown. -/
structure Timeline where
  events : List Event
  deriving Repr

/-- The two events of a span that is `first` and ends at `stop`. -/
def Event.span (first : Event) (stop : Float) : List Event :=
  [{ first with phase := .opens }, { first with phase := .closes, timestamp := stop }]

/-- The name of the span that stands for a rank's whole run. -/
def applicationName : String := "Application"

/-- The category of the spans that stand for a rank's whole run. -/
def applicationCategory : String := "N/A"

end TraceTimeline
