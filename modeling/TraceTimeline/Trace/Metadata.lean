import Std.Data.TreeMap
import TraceTimeline.Number.Reading
import TraceTimeline.Text.Blank
import TraceTimeline.Trace.FileName

/-!
# Run metadata

A trace describes its run by keys with text values. Values are kept as written and read when they
are asked for; a required value that is absent or cannot be read is an error, never a default. Beside
the entries the metadata remember the shared file that the section headers of the trace told of last.
-/

namespace TraceTimeline.Trace

/-- What a trace says about its run. -/
structure Metadata where
  entries : Std.TreeMap String String := {}
  primaryFile : Option String := none

inductive MetadataError where
  | missing (key : String)
  | invalid (key value : String)
  deriving DecidableEq, Repr

def MetadataError.message : MetadataError → String
  | missing key => "missing required run metadata: " ++ key
  | invalid key value => "invalid value for run metadata " ++ key ++ ": '" ++ value ++ "'"

namespace Metadata

/-- The key of the moment the run began, in seconds since 1970. -/
def startKey : String := "start_time"

/-- The key of the moment the run ended, in seconds since 1970. -/
def endKey : String := "end_time"

def processesKey : String := "nprocs"

/-- More ranks than this are refused. -/
def greatestProcesses : UInt32 := 4194304

/-- Sets a key. A later value replaces an earlier one. -/
def insert (metadata : Metadata) (key value : String) : Metadata :=
  { metadata with entries := metadata.entries.insert key value }

/-- Takes note of the file that a section header names. -/
def noteFile (metadata : Metadata) (identifier : String) : Metadata :=
  { metadata with primaryFile := (sharedFile? identifier).or metadata.primaryFile }

/-- The value of a key as it was written. -/
def get? (metadata : Metadata) (key : String) : Option String :=
  metadata.entries[key]?

def size (metadata : Metadata) : Nat :=
  metadata.entries.size

/-- The keys and their values, in the order of the keys. -/
def toList (metadata : Metadata) : List (String × String) :=
  metadata.entries.toList

def require (metadata : Metadata) (key : String) : Except MetadataError String :=
  match metadata.get? key with
  | some value => .ok value
  | none => .error (.missing key)

/-- The value of a key, read after blanks at its ends are dropped. -/
def read {α : Type} (metadata : Metadata) (read? : String → Option α) (key : String) :
    Except MetadataError α := do
  let value ← metadata.require key
  match read? (String.ofList (Text.trim value.toList)) with
  | some a => return a
  | none => throw (.invalid key value)

def seconds (metadata : Metadata) (key : String) : Except MetadataError Float :=
  metadata.read (fun s => (Number.float? s).filter Float.isFinite) key

def startTime (metadata : Metadata) : Except MetadataError Float :=
  metadata.seconds startKey

def endTime (metadata : Metadata) : Except MetadataError Float :=
  metadata.seconds endKey

def processes (metadata : Metadata) : Except MetadataError UInt32 :=
  metadata.read (fun s => (Number.uint32? s).filter (· ≤ greatestProcesses)) processesKey

end Metadata
end TraceTimeline.Trace
