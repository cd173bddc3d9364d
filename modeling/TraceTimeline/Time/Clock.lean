/-!
# Clocks

Traces count seconds from the start of the run, timelines microseconds from 1970. All of it is float
arithmetic: both summands are scaled before they are added.
-/

namespace TraceTimeline.Time

/-- The moment that a run's times are counted from, in seconds since 1970. -/
structure Clock where
  start : Float

namespace Clock

def scale : Float := 1000000

def micros (seconds : Float) : Float :=
  seconds * scale

/-- The absolute time, in microseconds, of a moment so many seconds into the run. -/
def absolute (clock : Clock) (seconds : Float) : Float :=
  micros seconds + micros clock.start

end Clock
end TraceTimeline.Time
