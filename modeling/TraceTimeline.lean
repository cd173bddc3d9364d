import TraceTimeline.Main
import TraceTimeline.Proofs.Trace.History
import TraceTimeline.Proofs.Trace.Stream
import TraceTimeline.Proofs.Trace.RoundTrip
import TraceTimeline.Proofs.Timeline.Artifact
import TraceTimeline.Proofs.Timeline.InOrder
import TraceTimeline.Proofs.Timeline.TimesSurvive
import TraceTimeline.Proofs.Timeline.NoTrace
import TraceTimeline.Proofs.Timeline.RunReport
import TraceTimeline.Proofs.Command.AllOrNothing
import TraceTimeline.Proofs.Command.InputKept
import TraceTimeline.Proofs.Timeline.SummaryCounts
import TraceTimeline.Proofs.Command.SameTrace
import TraceTimeline.Proofs.Json.AnyOrder
import TraceTimeline.Proofs.Json.Skipping
import TraceTimeline.Proofs.Timeline.Presentation
import TraceTimeline.Proofs.Json.CutOff
import TraceTimeline.Proofs.Json.CutNumber
import TraceTimeline.Proofs.Timeline.Truncation
import TraceTimeline.Proofs.Trace.DataLine
import TraceTimeline.Proofs.Timeline.Usable
import TraceTimeline.Proofs.Trace.Description
import TraceTimeline.Proofs.Timeline.PassedOver
import TraceTimeline.Proofs.Trace.CacheDirectory
import TraceTimeline.Proofs.Trace.ExtraColumns
import TraceTimeline.Proofs.Trace.Joined
import TraceTimeline.Proofs.Timeline.Interleaving
import TraceTimeline.Proofs.Timeline.Continued
import TraceTimeline.Proofs.Trace.LineEnds
import TraceTimeline.Proofs.Timeline.OneDocument
import TraceTimeline.Proofs.Time.Timestamp
import TraceTimeline.Proofs.Command.HandedOn
import TraceTimeline.Proofs.Trace.CacheFile
