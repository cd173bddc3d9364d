import TraceTimeline.Text.Search

/-!
# Names of traced files

A trace names files by identifiers, slash-separated paths of the machine that was traced. The cache
keeps, for a shared file `name`, a directory `name-cache` with one file `mmap-<rank>.dat` per rank.
So the base name of an identifier tells whether an operation hit the cache, and the directory of a
cache file tells which shared file it stands in for.
-/

namespace TraceTimeline.Trace

def baseName (identifier : String) : String :=
  String.ofList (Text.afterLast '/' identifier.toList)

/-- The component in front of the last one, empty where there is only one. -/
def parentName (identifier : String) : String :=
  String.ofList ((identifier.toList.splitOn '/').dropLast.getLastD [])

def cacheFront : List Char := "mmap-".toList

def cacheBack : List Char := ".dat".toList

def cacheDirectoryBack : List Char := "-cache".toList

def cacheMarker : List Char := cacheDirectoryBack ++ '/' :: cacheFront

def sharedBack : List Char := "h5".toList

/-- Whether an identifier names a cache file: its base name has something between `mmap-` and
`.dat`. -/
def isCacheFile (identifier : String) : Bool :=
  let name := (baseName identifier).toList
  cacheFront.length + cacheBack.length < name.length &&
    cacheFront.isPrefixOf name && cacheBack.isSuffixOf name

/-- The shared file that an identifier tells of: for a file in a cache directory the one the
directory is named after, for a shared file its own base name, and otherwise none. -/
def sharedFile? (identifier : String) : Option String :=
  if Text.contains cacheMarker identifier.toList then
    let name := Text.before cacheDirectoryBack (parentName identifier).toList
    if name.isEmpty then none else some (String.ofList name)
  else if sharedBack.isSuffixOf identifier.toList then some (baseName identifier)
  else none

end TraceTimeline.Trace
