import Std.Data.TreeMap
import Std.Data.TreeSet
import TraceTimeline.Time.Timestamp
import TraceTimeline.Trace.Layer
import TraceTimeline.Trace.Record

/-!
# The summary of a run

A summary counts the operations of every rank by layer, and names the files that are neither cache
files nor the shared file of the run.
-/

namespace TraceTimeline.Trace

/-- How many operations of a rank each layer served. -/
structure RankCount where
  cache : Nat := 0
  backend : Nat := 0
  deriving DecidableEq, Repr

namespace RankCount

/-- Counts one more operation. -/
def add (count : RankCount) : Layer → RankCount
  | .cacheLocal => { count with cache := count.cache + 1 }
  | .backend => { count with backend := count.backend + 1 }

/-- All operations of the rank. -/
def total (count : RankCount) : Nat :=
  count.cache + count.backend

end RankCount

/-- The operations of a run by rank, and its files of no known kind. -/
structure Summary where
  startTime : Float
  endTime : Float
  skippedLines : Nat
  ranks : Std.TreeMap UInt32 RankCount := {}
  unclassifiedFiles : Std.TreeSet String := {}

namespace Summary

/-- Counts a record. -/
def add (classifier : Classifier) (summary : Summary) (record : Record) : Summary :=
  let layer := classifier.layer record.file
  let known := layer = .cacheLocal || classifier.isPrimary record.file
  { summary with
    ranks := summary.ranks.alter record.rank fun count => some ((count.getD {}).add layer)
    unclassifiedFiles :=
      if known then summary.unclassifiedFiles
      else summary.unclassifiedFiles.insert record.fileName }

/-- The summary of a run that began and ended at these seconds since 1970, and of whose trace some
lines were skipped. -/
def ofRecords (classifier : Classifier) (startTime endTime : Float) (skippedLines : Nat)
    (records : List Record) : Summary :=
  records.foldl (add classifier) { startTime, endTime, skippedLines }

/-- The number of operations of the run. -/
def totalOperations (summary : Summary) : Nat :=
  summary.ranks.toList.foldl (fun total (_, count) => total + count.total) 0

/-- A line of the table of ranks: three columns, each flush right. -/
def tableLine (rank cache backend : String) : String :=
  let column (width : Nat) (s : String) := String.ofList (s.toList.leftpad width ' ')
  column 6 rank ++ "  " ++ column 12 cache ++ "  " ++ column 12 backend ++ "\n"

/-- The lines about the run and its ranks. -/
def overview (summary : Summary) : String :=
  "Run start:   " ++ Time.epochText summary.startTime ++ "\n" ++
  "Run length:  " ++ Number.fixedText 3 (summary.endTime - summary.startTime) ++ "s\n" ++
  "Operations:  " ++ toString summary.totalOperations ++ "\n" ++
  "Skipped:     " ++ toString summary.skippedLines ++ " line(s)\n\n" ++
  tableLine "rank" Layer.cacheLocal.name Layer.backend.name ++
  String.join (summary.ranks.toList.map fun (rank, count) =>
    tableLine (toString rank.toNat) (toString count.cache) (toString count.backend))

/-- The lines about files of no known kind; nothing where there are none. -/
def unclassifiedNote (summary : Summary) : String :=
  match summary.unclassifiedFiles.toList with
  | [] => ""
  | names =>
    "\nUnclassified files drawn on the backend track:\n" ++
      String.join (names.map fun name => "  " ++ name ++ "\n")

/-- The summary as text. -/
def text (summary : Summary) : String :=
  summary.overview ++ summary.unclassifiedNote

end Summary
end TraceTimeline.Trace
