import TraceTimeline.Text.Line
import TraceTimeline.Text.Utf8
import TraceTimeline.Trace.Line
import TraceTimeline.Trace.Metadata
import TraceTimeline.Trace.Record

/-!
# Scanning a trace

A trace is read in one pass, line by line. A line that cannot be used is dropped and reported with
its number; it never stops the scan. The outcome holds the records in the order of their lines, the
faults in the order of theirs, and the metadata.
-/

namespace TraceTimeline

namespace Trace

/-- A fault and the line it was found on, counted from one. -/
structure Diagnostic where
  line : Nat
  fault : LineFault
  deriving Repr

/-- What a scan has gathered and where it stands: inside a block or not, in the section of which
file, after how many lines. -/
structure Scan where
  block : Block := .outside
  currentFile : Option String := none
  lineCount : Nat := 0
  metadata : Metadata := {}
  records : Array Record := #[]
  diagnostics : Array Diagnostic := #[]

namespace Scan

def report (scan : Scan) (fault : LineFault) : Scan :=
  { scan with diagnostics := scan.diagnostics.push ⟨scan.lineCount, fault⟩ }

def enterSection (scan : Scan) (file : String) : Scan :=
  { scan with
    block := .outside
    currentFile := some file
    metadata := scan.metadata.noteFile file }

/-- Enters a section whose header names no file. -/
def enterNamelessSection (scan : Scan) : Scan :=
  { scan with block := .outside, currentFile := none }.report .noFileName

def takeData (scan : Scan) (line : String) : Scan :=
  match scan.currentFile with
  | none => scan.report .noActiveFile
  | some file =>
    match Record.ofLine line file with
    | .ok record => { scan with records := scan.records.push record }
    | .error fault => scan.report fault

/-- Takes a line that is known for what it is. -/
def take (scan : Scan) (line : String) : Line → Scan
  | .blank => { scan with block := .outside }
  | .sectionHeader (some file) => scan.enterSection file
  | .sectionHeader none => scan.enterNamelessSection
  | .columnHeader => { scan with block := .inside }
  | .data => scan.takeData line
  | .metadata key value => { scan with metadata := scan.metadata.insert key value }
  | .ignored => scan

def step (scan : Scan) (line : String) : Scan :=
  { scan with lineCount := scan.lineCount + 1 }.take line (Line.classify line scan.block)

end Scan
end Trace

structure Trace where
  metadata : Trace.Metadata
  records : List Trace.Record
  diagnostics : List Trace.Diagnostic

namespace Trace

def Scan.outcome (scan : Scan) : Trace :=
  { metadata := scan.metadata
    records := scan.records.toList
    diagnostics := scan.diagnostics.toList }

def ofLines (lines : List String) : Trace :=
  (lines.foldl Scan.step {}).outcome

def ofText (text : String) : Trace :=
  ofLines ((Text.lines text.toList).map String.ofList)

/-- The trace in a stream, which is split into lines before these are decoded. A line that is not
UTF-8 makes the stream unreadable, whatever the line may be. -/
def ofBytes? (bytes : Bytes) : Option Trace :=
  ((Text.linesBy 0x0A 0x0D bytes).mapM Bytes.toText?).map ofLines

end Trace
end TraceTimeline
