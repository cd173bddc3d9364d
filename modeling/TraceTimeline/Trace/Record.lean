import TraceTimeline.Number.Positional
import TraceTimeline.Number.Reading
import TraceTimeline.Text.Blank
import TraceTimeline.Trace.FileName

/-!
# Records of I/O operations

A data line of a trace has at least eight columns between blanks: I/O module, rank, operation,
segment, offset, length, start and end. Start and end are seconds since the run began. A line that
breaks a rule is refused with a `LineFault`; of several faults the times are reported first.
-/

namespace TraceTimeline.Trace

inductive Column where
  | rank
  | segment
  | offset
  | length
  | start
  | stop
  deriving DecidableEq, Repr

def Column.name : Column → String
  | rank => "rank"
  | segment => "segment"
  | offset => "offset"
  | length => "length"
  | start => "start"
  | stop => "end"

/-- Why a line of a trace contributes nothing. -/
inductive LineFault where
  | tooFewFields (found : Nat)
  | invalidInteger (column : Column) (value : String)
  | invalidNumber (column : Column) (value : String)
  | endBeforeStart (start stop : Float)
  | noFileName
  | noActiveFile
  deriving Repr

def columnCount : Nat := 8

def LineFault.message : LineFault → String
  | tooFewFields found =>
    "expected " ++ toString columnCount ++ " fields, found " ++ toString found
  | invalidInteger column value => "invalid integer for " ++ column.name ++ ": '" ++ value ++ "'"
  | invalidNumber column value => "invalid number for " ++ column.name ++ ": '" ++ value ++ "'"
  | endBeforeStart start stop =>
    "end offset " ++ Number.plainText stop ++ " precedes start offset " ++ Number.plainText start
  | noFileName => "section header carries no file name"
  | noActiveFile => "data line outside of any file section"

/-- One operation of one rank on one file, with the seconds since the run began at which it started
and ended. -/
structure Record where
  ioModule : String
  file : String
  rank : UInt32
  operation : String
  segment : UInt64
  offset : UInt64
  length : UInt64
  start : Float
  stop : Float
  deriving Repr

namespace Record

/-- The base name of the file that the operation was on. -/
def fileName (record : Record) : String :=
  baseName record.file

def integer {α : Type} (read? : String → Option α) (column : Column) (value : String) :
    Except LineFault α :=
  match read? value with
  | some n => .ok n
  | none => .error (.invalidInteger column value)

/-- A column that holds a time, which has to be finite. -/
def time (column : Column) (value : String) : Except LineFault Float :=
  match (Number.float? value).filter Float.isFinite with
  | some x => .ok x
  | none => .error (.invalidNumber column value)

def columns (line : String) : List String :=
  (Text.words line.toList).map String.ofList

/-- The record on a data line of the section of `file`. Columns after the eighth are ignored. -/
def ofLine (line file : String) : Except LineFault Record :=
  match columns line with
  | ioModule :: rank :: operation :: segment :: offset :: length :: start :: stop :: _ => do
    -- The times are looked at first, so of several faults on a line theirs is the one reported.
    let start ← time .start start
    let stop ← time .stop stop
    if stop < start then
      throw (.endBeforeStart start stop)
    let rank ← integer Number.uint32? .rank rank
    let segment ← integer Number.uint64? .segment segment
    let offset ← integer Number.uint64? .offset offset
    let length ← integer Number.uint64? .length length
    return { ioModule, file, rank, operation, segment, offset, length, start, stop }
  | fields => throw (.tooFewFields fields.length)

end Record
end TraceTimeline.Trace
