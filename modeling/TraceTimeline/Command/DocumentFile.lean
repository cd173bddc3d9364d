import TraceTimeline.Command.Surroundings
import TraceTimeline.Timeline.Document

/-!
# Documents in files

A document is written as a whole: it is made in memory, written to a new file beside its destination
and moved there, so that no reader ever meets half of it. Missing directories on the way are made
first.
-/

namespace TraceTimeline

/-- Why a document can be neither written nor read. -/
inductive DocumentError where
  | emptyPath
  | pathIsDirectory (path : Path)
  | noDirectory (directory : Path) (fault : FileFault)
  /-- A file cannot be written, or cannot be opened. -/
  | file (fault : FileFault)
  /-- The file is open, but its content cannot be had. -/
  | content (fault : FileFault)
  | json (fault : Json.Fault)
  deriving DecidableEq, Repr

def DocumentError.message : DocumentError → String
  | emptyPath => "Invalid output path: Path is empty"
  | pathIsDirectory path => "Invalid output path: Path is a directory: " ++ path.text
  | noDirectory directory fault =>
    "Invalid output path: Cannot create directory " ++ directory.text ++ ": " ++ fault.message
  | file fault => "Failed to write file: " ++ fault.message
  | content fault => "Failed to serialize JSON: " ++ fault.message
  | json fault => "Failed to serialize JSON: " ++ fault.message

def Path.directory (path : Path) : Path :=
  match path.parent? with
  | some parent => if parent.text = "" then ⟨"."⟩ else parent
  | none => ⟨"."⟩

section

variable {m : Type → Type} [Monad m] [Surroundings m]

/-- Makes a directory where there may be one already. -/
def makeSurely (path : Path) : m (Except FileFault Unit) := do
  match ← Surroundings.makeDirectory path with
  | .ok () => return .ok ()
  | .error fault =>
    if ← Surroundings.isDirectory path then return .ok () else return .error fault

/-- Makes the first of some nested directories, and before it those of the others that it needs. -/
def makeNested : List Path → m (Except FileFault Unit)
  | [] => return .ok ()
  | path :: outer => do
    match ← makeSurely path with
    | .error .notFound =>
      match ← makeNested outer with
      | .ok () => makeSurely path
      | .error fault => return .error fault
    | result => return result

def Timeline.save (timeline : Timeline) (style : Json.Style) (path : Path) :
    ExceptT DocumentError m Unit := do
  if path.text = "" then throw .emptyPath
  if ← Surroundings.isDirectory (m := m) path then throw (.pathIsDirectory path)
  let directory := path.directory
  if !(← Surroundings.isPresent (m := m) directory) then
    match ← makeNested (m := m) directory.ancestors with
    | .ok () => pure ()
    | .error fault => throw (.noDirectory directory fault)
  -- The document is complete before anything is written.
  let content := Bytes.ofText (timeline.toJson style)
  match ← Surroundings.replaceFile (m := m) directory path content with
  | .ok () => return ()
  | .error fault => throw (.file fault)

def Timeline.load (path : Path) : ExceptT DocumentError m Timeline := do
  match ← Surroundings.readFile (m := m) path with
  | .error (.opening fault) => throw (.file fault)
  | .error (.reading fault) => throw (.content fault)
  | .ok bytes =>
    match Timeline.ofJson bytes with
    | .ok timeline => return timeline
    | .error fault => throw (.json fault)

end

end TraceTimeline
