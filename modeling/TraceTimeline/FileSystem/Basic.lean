import TraceTimeline.FileSystem.Path
import TraceTimeline.Text.Utf8

/-!
# File systems

A file system is a tree of directories and files, seen from a working directory. Every place in it
has a location, the names on the way from the root. A path is followed name by name; each name can
only be looked up in a directory, so a path through a file or through nothing leads nowhere.
-/

namespace TraceTimeline

inductive FileFault where
  | notFound
  | notADirectory
  | isADirectory
  | alreadyExists
  | busy
  | nameTooLong
  | invalidName
  | notText
  | other (message : String)
  deriving DecidableEq, Repr

def FileFault.message : FileFault → String
  | notFound => "No such file or directory (os error 2)"
  | notADirectory => "Not a directory (os error 20)"
  | isADirectory => "Is a directory (os error 21)"
  | alreadyExists => "File exists (os error 17)"
  | busy => "Device or resource busy (os error 16)"
  | nameTooLong => "File name too long (os error 36)"
  | invalidName => "file name contained an unexpected NUL byte"
  | notText => "stream did not contain valid UTF-8"
  | other message => message

/-- The names on the way from the root to a place. -/
abbrev Location := List String

inductive Entry where
  | directory
  | file (content : Bytes)
  deriving DecidableEq, Repr

/-- Directories and files by location. The root is always there. -/
structure FileSystem where
  entries : List (Location × Entry)
  workingDirectory : Location
  deriving Repr

namespace FileSystem

def entry? (fs : FileSystem) (location : Location) : Option Entry :=
  if location = [] then some .directory else fs.entries.lookup location

/-- Puts an entry at a location, in place of what is there. -/
def put (fs : FileSystem) (location : Location) (entry : Entry) : FileSystem :=
  { fs with entries := (location, entry) :: fs.entries.filter (·.1 ≠ location) }

def longestName : Nat := 255

/-- Goes from a directory to one of its names. Nothing has to be there yet. -/
def enter (fs : FileSystem) (here : Location) (name : String) : Except FileFault Location :=
  match fs.entry? here with
  | none => throw .notFound
  | some (.file _) => throw .notADirectory
  | some .directory =>
    if Path.isSilent name then return here
    else if name = ".." then return here.dropLast
    else if longestName < name.utf8ByteSize then throw .nameTooLong
    else return here ++ [name]

/-- The location that a path starts from. -/
def origin (fs : FileSystem) (path : Path) : Location :=
  if path.isAbsolute then [] else fs.workingDirectory

/-- The location that a path leads to. Nothing has to be there. -/
def locate (fs : FileSystem) (path : Path) : Except FileFault Location :=
  if path.text = "" then throw .notFound
  else if '\x00' ∈ path.text.toList then throw .invalidName
  else path.pieces.foldlM fs.enter (fs.origin path)

def find (fs : FileSystem) (path : Path) : Except FileFault Entry := do
  let location ← fs.locate path
  match fs.entry? location with
  | some entry => return entry
  | none => throw .notFound

def isPresent (fs : FileSystem) (path : Path) : Bool :=
  (fs.find path).toOption.isSome

def isDirectory (fs : FileSystem) (path : Path) : Bool :=
  (fs.find path).toOption == some .directory

/-- The place that a path names in its directory, for an entry that is to be made there. The last
name is not followed; there is none where it is `.` or `..`, or at the root. -/
def slot? (fs : FileSystem) (path : Path) : Except FileFault (Option Location) :=
  if path.text = "" then throw .notFound
  else if '\x00' ∈ path.text.toList then throw .invalidName
  else
    match (path.pieces.reverse.dropWhile (· = "")) with
    | [] => return none
    | last :: before => do
      -- The last name is entered too, so that it is held to the same rules as the others.
      let directory ← before.reverse.foldlM fs.enter (fs.origin path)
      let location ← fs.enter directory last
      if last = "." ∨ last = ".." then return none else return some location

def makeDirectory (fs : FileSystem) (path : Path) : Except FileFault FileSystem := do
  match ← fs.slot? path with
  | none => throw .alreadyExists
  | some location =>
    match fs.entry? location with
    | some _ => throw .alreadyExists
    | none => return fs.put location .directory

/-- Writes a file under a new name in `directory` and moves it to `target`, where it replaces a
file. -/
def replaceFile (fs : FileSystem) (directory target : Path) (content : Bytes) :
    Except FileFault FileSystem := do
  match ← fs.find directory with
  | .file _ => throw .notADirectory
  | .directory =>
    match ← fs.slot? target with
    | none => throw .busy
    | some location =>
      if target.text.toList.getLast? = some '/' then throw .notADirectory
      else
        match fs.entry? location with
        | some .directory => throw .isADirectory
        | _ => return fs.put location (.file content)

end FileSystem
end TraceTimeline
