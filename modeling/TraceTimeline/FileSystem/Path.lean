/-!
# Paths

A path is a text, and it is shown as it was given. Its pieces are what stands between its slashes.
Some pieces are silent: an empty piece or a single point leads nowhere, except for a point in front of
a relative path, which counts when two paths are compared.
-/

namespace TraceTimeline

structure Path where
  text : String
  deriving DecidableEq, Repr

namespace Path

def isAbsolute (path : Path) : Bool :=
  path.text.toList.head? == some '/'

def pieces (path : Path) : List String :=
  (path.text.toList.splitOn '/').map String.ofList

def ofPieces (pieces : List String) : Path :=
  ⟨String.intercalate "/" pieces⟩

/-- A piece that leads nowhere. -/
def isSilent (piece : String) : Bool :=
  piece = "" || piece = "."

/-- The pieces without the silent ones at their end. -/
def trimEnd (pieces : List String) : List String :=
  (pieces.reverse.dropWhile isSilent).reverse

/-- The pieces that count when paths are compared. -/
def components (path : Path) : List String :=
  match path.pieces with
  | [] => []
  | first :: rest => (if first = "" then [] else [first]) ++ rest.filter (fun piece => !isSilent piece)

/-- Whether two paths are the same as written: repeated and final slashes and inner points make no
difference. Two different paths may still lead to one file. -/
def sameAs (p q : Path) : Bool :=
  p.isAbsolute == q.isAbsolute && p.components == q.components

/-- The path without its last component. The root and the empty path have no parent. -/
def parent? (path : Path) : Option Path :=
  match path.pieces with
  | [] => none
  | first :: rest =>
    match trimEnd rest with
    | [] => if first = "" then none else some ⟨""⟩
    | used =>
      match first, trimEnd used.dropLast with
      | "", [] => some ⟨"/"⟩
      | _, kept => some (ofPieces (first :: kept))

/-- The path and its parents up to the given number, the path itself first. -/
def upward : Nat → Path → List Path
  | 0, _ => []
  | count + 1, path =>
    if path.text = "" then []
    else
      path ::
        match path.parent? with
        | none => []
        | some parent => upward count parent

/-- The path and all of its parents, the path itself first. -/
def ancestors (path : Path) : List Path :=
  upward path.pieces.length path

/-- A path taken from a directory. An absolute path stays as it is. -/
def join (directory path : Path) : Path :=
  if path.isAbsolute || directory.text = "" then path
  else if directory.text.toList.getLast? = some '/' then ⟨directory.text ++ path.text⟩
  else ⟨directory.text ++ "/" ++ path.text⟩

end Path
end TraceTimeline
