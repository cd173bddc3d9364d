import TraceTimeline.Text.Blank
import TraceTimeline.Text.Search

/-!
# Lines of a trace

A trace is a sequence of sections, one per file. A section header names the file, a column header
opens a block of data lines, and a blank line closes it. Lines of the form `# key: value` outside a
block describe the run. What a line is depends on its text and on whether it stands inside a block.
-/

namespace TraceTimeline.Trace

inductive Block where
  | outside
  | inside
  deriving DecidableEq, Repr

/-- What a line is. -/
inductive Line where
  | blank
  /-- The start of a section, with the identifier of its file if the header is long enough. -/
  | sectionHeader (file : Option String)
  | columnHeader
  | data
  | metadata (key value : String)
  | ignored
  deriving DecidableEq, Repr

namespace Line

def sectionMarker : List Char := "DXT, file_id".toList

def columnMarker : List Char := "Module".toList

def metadataMarker : List Char := "# ".toList

def metadataSeparator : List Char := ": ".toList

/-- The word of a section header that names the file, counted from zero. -/
def fileWord : Nat := 5

/-- The key and the value on a metadata line. -/
def keyValue? (line : List Char) : Option (String × String) :=
  if metadataMarker.isPrefixOf line then
    (Text.cut metadataSeparator (line.drop metadataMarker.length)).map fun (key, value) =>
      (String.ofList key, String.ofList value)
  else none

/-- What a line is inside or outside a block. A section header may look like a column header too,
and inside a block every line that is neither blank nor a header is data. -/
def classify (line : String) (block : Block) : Line :=
  let s := line.toList
  if Text.isBlankLine s then blank
  else if Text.contains sectionMarker s then
    sectionHeader ((Text.words s)[fileWord]?.map String.ofList)
  else if Text.contains columnMarker s then columnHeader
  else
    match block with
    | .inside => data
    | .outside =>
      match keyValue? s with
      | some (key, value) => metadata key value
      | none => ignored

end Line
end TraceTimeline.Trace
