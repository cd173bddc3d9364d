import TraceTimeline.Time.Clock
import TraceTimeline.Timeline.Event
import TraceTimeline.Trace.Layer
import TraceTimeline.Trace.Metadata
import TraceTimeline.Trace.Record

/-!
# The timeline of a run

Every record becomes a span on the track of its layer, in the order of the records; after them every
rank gets a span for its whole run. The metadata are read before the first event is made, so a run
whose metadata are unusable has no timeline at all.
-/

namespace TraceTimeline

open Time Trace

/-- The span of a record. -/
def Trace.Record.span (clock : Clock) (classifier : Classifier) (record : Record) : List Event :=
  Event.span
    { name := record.fileName
      category := record.ioModule
      timestamp := clock.absolute record.start
      rank := record.rank
      track := (classifier.layer record.file).track
      phase := .opens
      args :=
        { operation := some record.operation
          segment := some record.segment
          offset := some record.offset
          length := some record.length } }
    (clock.absolute record.stop)

/-- The span of a rank's whole run, up to `stop` seconds after 1970. -/
def applicationSpan (clock : Clock) (stop : Float) (rank : UInt32) : List Event :=
  Event.span
    { name := applicationName
      category := applicationCategory
      timestamp := clock.absolute 0
      rank
      track := 0
      phase := .opens
      args := {} }
    (Clock.micros stop)

/-- The ranks of a run, in order. -/
def ranksBelow (processes : UInt32) : List UInt32 :=
  (List.range processes.toNat).map UInt32.ofNat

namespace Timeline

/-- The timeline of a run. -/
def ofRecords (records : List Record) (metadata : Metadata) (classifier : Classifier) :
    Except MetadataError Timeline := do
  let start ← metadata.startTime
  let stop ← metadata.endTime
  if stop < start then
    throw (.invalid Metadata.endKey ((metadata.get? Metadata.endKey).getD ""))
  let processes ← metadata.processes
  let clock : Clock := ⟨start⟩
  return {
    events :=
      records.flatMap (Record.span clock classifier) ++
        (ranksBelow processes).flatMap (applicationSpan clock stop) }

end Timeline
end TraceTimeline
