import TraceTimeline.FileSystem.Basic

/-!
# What commands act on

Commands look at files, read a stream, change files and print. They are written once, over any monad
`m` that can do so. A `Session` does it on a value: files, what the stream holds, and what has been
printed.
-/

namespace TraceTimeline

inductive ReadFault where
  /-- The file cannot be opened. -/
  | opening (fault : FileFault)
  /-- The file is open, but cannot be read. -/
  | reading (fault : FileFault)
  deriving DecidableEq, Repr

/-- The operations that commands consist of. -/
class Surroundings (m : Type → Type) where
  isPresent : Path → m Bool
  isDirectory : Path → m Bool
  readFile : Path → m (Except ReadFault Bytes)
  /-- The whole of the input stream. -/
  readInput : m (Except FileFault Bytes)
  makeDirectory : Path → m (Except FileFault Unit)
  /-- Writes a file under a new name in a directory and moves it to its target. -/
  replaceFile : (directory target : Path) → Bytes → m (Except FileFault Unit)
  print : String → m Unit

/-- Files, an input stream, and what has been printed. -/
structure Session where
  files : FileSystem
  input : Bytes := []
  printed : String := ""

/-- The content of the file that a path leads to. A directory can be opened, but not read. -/
def FileSystem.read (fs : FileSystem) (path : Path) : Except ReadFault Bytes :=
  match fs.find path with
  | .error fault => throw (.opening fault)
  | .ok .directory => throw (.reading .isADirectory)
  | .ok (.file content) => return content

namespace Session

def change (f : FileSystem → Except FileFault FileSystem) :
    StateM Session (Except FileFault Unit) := fun session =>
  match f session.files with
  | .ok files => (.ok (), { session with files })
  | .error fault => (.error fault, session)

instance : Surroundings (StateM Session) where
  isPresent path := return (← get).files.isPresent path
  isDirectory path := return (← get).files.isDirectory path
  readFile path := return (← get).files.read path
  readInput := return .ok (← get).input
  makeDirectory path := change (·.makeDirectory path)
  replaceFile directory target content := change (·.replaceFile directory target content)
  print text := modify fun session => { session with printed := session.printed ++ text }

end Session
end TraceTimeline
