import MapReduce.Bytes

/-!
Paths as they are written: the names in them, the directory above, a name inside a directory.
-/
namespace MapReduce

abbrev Path := Bytes

namespace Path

def names (path : Path) : List Bytes :=
  (splitWhere (· == Bytes.slash) path).filter (!·.isEmpty)

def isAbsolute (path : Path) : Bool :=
  path.head? == some Bytes.slash

def endsInSlash (path : Path) : Bool :=
  path.getLast? == some Bytes.slash

/-- A name inside a directory; the empty path is the working directory. -/
def join (directory name : Path) : Path :=
  if directory.isEmpty then name
  else if directory.endsInSlash then directory ++ name
  else directory ++ Bytes.slash :: name

/-- A path read from its end, without the slashes and the names `.` there. -/
def trimEnd : Bytes → Bytes
  | 0x2F :: rest => trimEnd rest
  | 0x2E :: 0x2F :: rest => trimEnd rest
  | reversed => reversed

/-- The path without its last name; neither the root nor the empty path has one. -/
def parent? (path : Path) : Option Path :=
  match trimEnd path.reverse with
  | [] => none
  | reversed =>
    let above := reversed.dropWhile (· != Bytes.slash)
    let kept := trimEnd above
    if kept.isEmpty && !above.isEmpty then some [Bytes.slash] else some kept.reverse

end Path

end MapReduce
