/-!
# What the program says about itself
-/

namespace TraceTimeline

def programVersion : String := "0.1.0"

/-- The version of the documents that it writes. -/
def schemaVersion : String := "1.0.0"

/-- The members of a document, one line each. -/
def schemaDetails : String :=
  "Schema Structure:\n" ++
  "  traceEvents: array       - Ordered begin/end events\n" ++
  "    name: string           - File name, or 'Application' for run spans\n" ++
  "    cat: string            - I/O module (X_POSIX, X_MPIIO, ...), 'N/A' for run spans\n" ++
  "    ts: number             - Absolute timestamp in microseconds\n" ++
  "    pid: number            - MPI rank\n" ++
  "    tid: number            - Track: 0 = cache-local, 1 = backend\n" ++
  "    ph: string             - 'B' (begin) or 'E' (end)\n" ++
  "    args: object           - operation, segment, offset, length (empty for run spans)\n"

def aboutSchema (detailed : Bool) : String :=
  "DXT Timeline Output Schema (Chrome Trace Event Format)\n" ++
  "Current Version: " ++ schemaVersion ++ "\n\n" ++
  if detailed then schemaDetails else "Use --show for detailed schema information\n"

def aboutProgram : String :=
  "DXT Timeline v" ++ programVersion ++ "\n" ++
  "Output Schema: v" ++ schemaVersion ++ "\n\n" ++
  "Converts DXT I/O traces of cached HDF5 runs into trace-event timelines.\n"

def versionLine : String :=
  "dxt-timeline " ++ programVersion ++ "\n"

end TraceTimeline
