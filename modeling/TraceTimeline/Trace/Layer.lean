import TraceTimeline.Trace.FileName

/-!
# Storage layers

An operation hits either the cache on the node of its rank or the file system behind it. Each layer
has a track of its own in the picture of a rank.
-/

namespace TraceTimeline.Trace

/-- Where an operation was served. -/
inductive Layer where
  | cacheLocal
  | backend
  deriving DecidableEq, Repr

namespace Layer

def track : Layer → UInt32
  | cacheLocal => 0
  | backend => 1

def name : Layer → String
  | cacheLocal => "cache-local"
  | backend => "backend"

end Layer

/-- Tells the files of a run apart, given the base name of its shared file where that is known. -/
structure Classifier where
  primaryFile : Option String
  deriving DecidableEq, Repr

namespace Classifier

/-- The layer of a file. The shared file and files of no known kind are both drawn on the backend
track, so which file is the shared one makes no difference here. -/
def layer (_classifier : Classifier) (identifier : String) : Layer :=
  if isCacheFile identifier then .cacheLocal else .backend

def isPrimary (classifier : Classifier) (identifier : String) : Bool :=
  classifier.primaryFile == some (baseName identifier)

end Classifier
end TraceTimeline.Trace
