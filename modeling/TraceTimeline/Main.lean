import TraceTimeline.Command.Program

/-!
# The program on a machine

The commands act on the files and streams of the machine. This is the only module that does: it says
how each operation is carried out and what the machine's errors mean, and leaves all decisions to
`runProgram`.
-/

namespace TraceTimeline

/-- The error number of the operating system. -/
def errorNumber : IO.Error → UInt32
  | .alreadyExists _ number _ | .otherError number _ | .resourceBusy number _
  | .resourceVanished number _ | .unsupportedOperation number _ | .hardwareFault number _
  | .unsatisfiedConstraints number _ | .illegalOperation number _ | .protocolError number _
  | .timeExpired number _ | .interrupted _ number _ | .noFileOrDirectory _ number _
  | .invalidArgument _ number _ | .permissionDenied _ number _ | .resourceExhausted _ number _
  | .inappropriateType _ number _ | .noSuchThing _ number _ => number
  | .unexpectedEof | .userError _ => 0

/-- What an error of the machine means for a command. -/
def FileFault.ofError (error : IO.Error) : FileFault :=
  match errorNumber error with
  | 2 => .notFound
  | 16 => .busy
  | 17 => .alreadyExists
  | 20 => .notADirectory
  | 21 => .isADirectory
  | 36 => .nameTooLong
  | _ => .other (toString error)

/-- Carries out an action and reports its failure. -/
def attempt {α : Type} (action : IO α) : IO (Except FileFault α) := do
  match ← action.toBaseIO with
  | .ok a => return .ok a
  | .error error => return .error (.ofError error)

/-- Whether an action succeeds. -/
def succeeds {α : Type} (action : IO α) : IO Bool := do
  match ← attempt action with
  | .ok _ => return true
  | .error _ => return false

/-- The bytes of a file. Opening it and reading it fail in different ways. -/
def readBytes (path : Path) : IO (Except ReadFault Bytes) := do
  match ← attempt (IO.FS.Handle.mk path.text .read) with
  | .error fault => return .error (.opening fault)
  | .ok handle =>
    match ← attempt handle.readBinToEnd with
    | .error fault => return .error (.reading fault)
    | .ok bytes => return .ok bytes.data.toList

/-- Writes a new file of a random name and moves it to its target. It is removed if that fails. -/
def replaceOnDisk (directory target : Path) (content : Bytes) : IO (Except FileFault Unit) := do
  let number ← IO.rand 0 2147483647
  let fresh := directory.text ++ "/.tmp" ++ toString number
  match ← attempt (IO.FS.Handle.mk fresh .writeNew) with
  | .error fault => return .error fault
  | .ok handle =>
    let result ← attempt do
      handle.write ⟨content.toArray⟩
      handle.flush
      IO.FS.rename fresh target.text
    if let .error _ := result then
      let _ ← attempt (IO.FS.removeFile fresh)
    return result

instance : Surroundings IO where
  isPresent path := succeeds (IO.FS.realPath path.text)
  isDirectory path := do
    if path.text = "" then return false
    succeeds (IO.FS.realPath (path.text ++ "/."))
  readFile := readBytes
  readInput := attempt do
    let bytes ← (← IO.getStdin).readBinToEnd
    return bytes.data.toList
  makeDirectory path := attempt (IO.FS.createDir path.text)
  replaceFile := replaceOnDisk
  print := IO.print

/-- How the program is to be called. -/
def usage : String :=
  "Usage: dxt-timeline [-v] convert [-o OUTPUT] [--trace-dir DIR] [--primary-file NAME] [--compact]\n" ++
  "                         [--summary] INPUT\n" ++
  "       dxt-timeline [-v] validate -f FILE\n" ++
  "       dxt-timeline [-v] schema [--show]\n" ++
  "       dxt-timeline [-v] version\n"

end TraceTimeline

/-- Runs the program with the arguments of its command line. -/
def main (arguments : List String) : IO UInt32 := do
  let directory ← IO.getEnv TraceTimeline.Command.traceDirectoryVariable
  let outcome ← TraceTimeline.runProgram directory arguments
  match outcome with
  | .done => pure ()
  | .failed _ => IO.eprintln (outcome.report?.getD "")
  | .helpShown => IO.print TraceTimeline.usage
  | .misused => IO.eprint TraceTimeline.usage
  return outcome.exitCode.toUInt32
