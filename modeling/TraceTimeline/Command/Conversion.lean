import TraceTimeline.Command.DocumentFile
import TraceTimeline.Timeline.Spans
import TraceTimeline.Trace.Scan
import TraceTimeline.Trace.Summary

/-!
# Converting a trace

`Conversion.run` reads a trace from a file or from the input stream, makes its timeline, writes that to
a file and prints a summary if one is asked for. Nothing is written unless there is a whole timeline to
write, and nothing is printed unless it has been written.
-/

namespace TraceTimeline

structure Conversion where
  /-- The file of the trace; `-` stands for the input stream. -/
  input : Path := ⟨"-"⟩
  /-- Where a relative input is looked for that does not exist as given. -/
  traceDirectory : Option Path := none
  output : Path := ⟨"timeline.json"⟩
  /-- The base name of the shared file, in place of the one that the trace tells of. -/
  primaryFile : Option String := none
  style : Json.Style := .pretty
  summary : Bool := false
  deriving DecidableEq, Repr

inductive ArgsError where
  | emptyInput
  | emptyOutput
  | outputIsInput
  | primaryFileNotBare
  deriving DecidableEq, Repr

def ArgsError.message : ArgsError → String
  | emptyInput => "Input path cannot be empty"
  | emptyOutput => "Output path cannot be empty"
  | outputIsInput => "Output path must differ from the input path"
  | primaryFileNotBare => "Primary file must be a bare file name"

/-- A base name, without a slash in it. -/
def isBareName (name : String) : Bool :=
  name ≠ "" && '/' ∉ name.toList

/-- Checks a conversion as it was asked for, without a look at any file. -/
def Conversion.validate (conversion : Conversion) : Except ArgsError Unit := do
  if conversion.input.text = "" then throw .emptyInput
  if conversion.output.text = "" then throw .emptyOutput
  if conversion.input.sameAs conversion.output then throw .outputIsInput
  if !conversion.primaryFile.all isBareName then throw .primaryFileNotBare

inductive ConversionError where
  | inputNotFound (input : Path) (searched : Option Path)
  | cannotReadInput (fault : FileFault)
  | cannotOpen (path : Path) (fault : FileFault)
  | cannotRead (path : Path) (fault : FileFault)
  | unusableMetadata (error : Trace.MetadataError)
  | cannotWrite (error : DocumentError)
  | noSummary (error : Trace.MetadataError)
  deriving DecidableEq, Repr

/-- What failed, without the cause. -/
def ConversionError.headline : ConversionError → String
  | inputNotFound input none => "Trace not found: " ++ input.text
  | inputNotFound input (some directory) =>
    "Trace not found: " ++ input.text ++ " (also searched " ++ directory.text ++ ")"
  | cannotReadInput _ => "Failed to read trace from stdin"
  | cannotOpen path _ => "Failed to open trace " ++ path.text
  | cannotRead path _ => "Failed to read trace " ++ path.text
  | unusableMetadata _ => "Cannot build timeline from trace metadata"
  | cannotWrite _ => "Failed to write timeline JSON"
  | noSummary error => error.message

/-- The line above and below a printed summary. -/
def summaryRule : String :=
  String.ofList (List.replicate 60 '=') ++ "\n"

def summaryText (events : Nat) (summary : Trace.Summary) : String :=
  "\n" ++ summaryRule ++ "TIMELINE SUMMARY\n" ++ summaryRule ++
    "Events:      " ++ toString events ++ "\n" ++ summary.text ++ summaryRule

def Trace.summary (trace : Trace) (classifier : Classifier) : Except MetadataError Summary := do
  let start ← trace.metadata.startTime
  let stop ← trace.metadata.endTime
  return Summary.ofRecords classifier start stop trace.diagnostics.length trace.records

/-- The trace in some bytes, or the error to report where they are no text. -/
def decodeTrace (report : FileFault → ConversionError) (bytes : Bytes) :
    Except ConversionError Trace :=
  match Trace.ofBytes? bytes with
  | some trace => .ok trace
  | none => .error (report .notText)

namespace Conversion

variable {m : Type → Type} [Monad m] [Surroundings m]

/-- The path of the input: as given if anything is there, and otherwise, if it is relative, in the
trace directory. -/
def findInput (conversion : Conversion) : ExceptT ConversionError m Path := do
  let input := conversion.input
  if ← Surroundings.isPresent (m := m) input then return input
  match conversion.traceDirectory with
  | none => throw (.inputNotFound input none)
  | some directory =>
    let candidate := directory.join input
    if !input.isAbsolute && (← Surroundings.isPresent (m := m) candidate) then return candidate
    throw (.inputNotFound input (some directory))

def readTrace (conversion : Conversion) : ExceptT ConversionError m Trace := do
  if conversion.input.text = "-" then
    match ← Surroundings.readInput (m := m) with
    | .ok bytes => decodeTrace .cannotReadInput bytes
    | .error fault => throw (.cannotReadInput fault)
  else
    let path ← conversion.findInput
    match ← Surroundings.readFile (m := m) path with
    | .ok bytes => decodeTrace (.cannotRead path) bytes
    | .error (.opening fault) => throw (.cannotOpen path fault)
    | .error (.reading fault) => throw (.cannotRead path fault)

/-- What is known of the shared file of the run. -/
def classifier (conversion : Conversion) (trace : Trace) : Trace.Classifier :=
  ⟨conversion.primaryFile.or trace.metadata.primaryFile⟩

def run (conversion : Conversion) : ExceptT ConversionError m Unit := do
  let trace ← conversion.readTrace
  let classifier := conversion.classifier trace
  let timeline ← ExceptT.mk (pure
    ((Timeline.ofRecords trace.records trace.metadata classifier).mapError .unusableMetadata))
  (timeline.save conversion.style conversion.output).adapt .cannotWrite
  if conversion.summary then
    match trace.summary classifier with
    | .ok summary => Surroundings.print (m := m) (summaryText timeline.events.length summary)
    | .error error => throw (.noSummary error)

end Conversion
end TraceTimeline
