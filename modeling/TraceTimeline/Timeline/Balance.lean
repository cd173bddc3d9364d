import Std.Data.TreeSet
import TraceTimeline.Number.Positional
import TraceTimeline.Timeline.Event

/-!
# Balanced timelines

In a balanced timeline every closing event closes the latest span that is still open under its rank,
track, name and category, no span ends before it begins, and no span is left open. The check goes
through the events once and reports the first event that breaks a rule; spans left open are reported
at the end.
-/

namespace TraceTimeline

/-- What the two events of a span have in common. -/
structure SpanKey where
  rank : UInt32
  track : UInt32
  name : String
  category : String
  deriving DecidableEq, Repr

def Event.key (event : Event) : SpanKey :=
  ⟨event.rank, event.track, event.name, event.category⟩

inductive BalanceError where
  | unmatchedEnd (name : String) (rank track : UInt32)
  | endBeforeBegin (name : String) (rank : UInt32) (start stop : Float)
  | unclosed (count : Nat)
  deriving Repr

def BalanceError.message : BalanceError → String
  | unmatchedEnd name rank track =>
    "end event without matching begin: " ++ name ++ " (pid " ++ toString rank.toNat ++ ", tid " ++
      toString track.toNat ++ ")"
  | endBeforeBegin name rank start stop =>
    "span " ++ name ++ " (pid " ++ toString rank.toNat ++ ") ends at " ++ Number.plainText stop ++
      " before it begins at " ++ Number.plainText start
  | unclosed count => toString count ++ " begin event(s) never closed"

/-- What a balanced timeline consists of. Application spans count as spans too. -/
structure TimelineStats where
  events : Nat
  spans : Nat
  applicationSpans : Nat
  ranks : Nat
  deriving DecidableEq, Repr

/-- What is known after some events: the spans still open, the latest first, and the counts. -/
structure Balance where
  openSpans : List (SpanKey × Float) := []
  spans : Nat := 0
  applicationSpans : Nat := 0
  ranks : Std.TreeSet UInt32 := {}

namespace Balance

def openSpan (balance : Balance) (event : Event) : Balance :=
  { balance with openSpans := (event.key, event.timestamp) :: balance.openSpans }

/-- Closes the latest open span with the key of the event. -/
def closeSpan (balance : Balance) (event : Event) : Except BalanceError Balance :=
  match balance.openSpans.lookup event.key with
  | none => throw (.unmatchedEnd event.name event.rank event.track)
  | some start =>
    if event.timestamp < start then
      throw (.endBeforeBegin event.name event.rank start event.timestamp)
    else
      return { balance with
        openSpans := balance.openSpans.eraseP (·.1 == event.key)
        spans := balance.spans + 1
        applicationSpans :=
          balance.applicationSpans + if event.name = applicationName then 1 else 0 }

def step (balance : Balance) (event : Event) : Except BalanceError Balance :=
  let seen := { balance with ranks := balance.ranks.insert event.rank }
  match event.phase with
  | .opens => return seen.openSpan event
  | .closes => seen.closeSpan event

end Balance

/-- Checks that a timeline is balanced, and counts what it consists of. -/
def Timeline.check (timeline : Timeline) : Except BalanceError TimelineStats := do
  let balance ← timeline.events.foldlM Balance.step {}
  if balance.openSpans.isEmpty then
    return {
      events := timeline.events.length
      spans := balance.spans
      applicationSpans := balance.applicationSpans
      ranks := balance.ranks.size }
  else throw (.unclosed balance.openSpans.length)

end TraceTimeline
