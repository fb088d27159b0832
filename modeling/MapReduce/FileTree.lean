import MapReduce.IoError

/-!
The files a job reads and writes: a tree of directories and files, a device that is always full,
and the worker programs that can be started.

A path is looked up one name at a time from the root or from the working directory. Every name on
the way must be a directory; what the last name may be depends on the operation.
-/
namespace MapReduce

/-- A place in the tree, as the names on the way from the root. -/
abbrev Location := List Bytes

inductive Node where
  | file (contents : Bytes)
  | directory
  | fullDevice
  /-- A program that runs the worker command line. -/
  | workerProgram
  deriving DecidableEq, Repr

structure FileTree where
  workingDirectory : Location
  nodes : List (Location × Node)
  deriving DecidableEq, Repr

namespace FileTree

def nameLimit : Nat := 255

/-- One more than the length of the longest path. -/
def pathLimit : Nat := 4096

/-- One more than the length of the longest file. -/
def sizeLimit : Nat := 0x100000000000

def get? (t : FileTree) (place : Location) : Option Node :=
  t.nodes.lookup place

def put (t : FileTree) (place : Location) (node : Node) : FileTree :=
  { t with nodes := (t.nodes.filter fun entry => entry.1 != place) ++ [(place, node)] }

def removeAll (t : FileTree) (place : Location) : FileTree :=
  { t with nodes := t.nodes.filter fun entry => !place.isPrefixOf entry.1 }

/-- Follows names; each must be looked up in a directory. -/
def walk (t : FileTree) : Location → List Bytes → Except IoError Location
  | place, [] => .ok place
  | place, name :: rest =>
    match t.get? place with
    | none => .error .noEntry
    | some .directory =>
      if name = [0x2E] then t.walk place rest
      else if name = [0x2E, 0x2E] then t.walk place.dropLast rest
      else if nameLimit < name.length then .error .nameTooLong
      else t.walk (place ++ [name]) rest
    | some _ => .error .notDirectory

def checkPath (path : Path) : Except IoError Unit :=
  if path.contains 0 then
    .error (.worded .invalidInput "file name contained an unexpected NUL byte")
  else if path.isEmpty then .error .noEntry
  else if pathLimit ≤ path.length then .error .nameTooLong
  else .ok ()

def origin (t : FileTree) (path : Path) : Location :=
  if path.isAbsolute then [] else t.workingDirectory

/-- The place a path leads to, whether or not something is there. -/
def resolve (t : FileTree) (path : Path) : Except IoError Location := do
  checkPath path
  t.walk (t.origin path) path.names

/-- The directory in which the last name of a path would be looked up, whatever that name is. -/
def resolveParent (t : FileTree) (path : Path) : Except IoError Location := do
  checkPath path
  t.walk (t.origin path) (path.names.dropLast ++ [[0x2E]])

def openFile (t : FileTree) (path : Path) : Except IoError Location := do
  let place ← t.resolve path
  match t.get? place with
  | none => .error .noEntry
  | some .directory => .ok place
  | some _ => if path.endsInSlash then .error .notDirectory else .ok place

/-- The contents of an open file; a directory can be opened but not read. -/
def read (t : FileTree) (place : Location) : Except IoError Bytes :=
  match t.get? place with
  | some (.file contents) => .ok contents
  | some .directory => .error .isDirectory
  | _ => .ok []

/-- Opens a file for writing, empty: a new one, or an old one that loses its contents. A path that
ends in a slash names no file, and its last name is not looked up. -/
def create (t : FileTree) (path : Path) : Except IoError (Location × FileTree) := do
  if path.endsInSlash then
    let _ ← t.resolveParent path
    .error .isDirectory
  else
    let place ← t.resolve path
    match t.get? place with
    | some .directory => .error .isDirectory
    | some .fullDevice => .ok (place, t)
    | none | some (.file _) | some .workerProgram => .ok (place, t.put place (.file []))

/-- Writes into a file from an offset on, over what is there. -/
def writeAt (t : FileTree) (place : Location) (offset : Nat) (bs : Bytes) : FileTree :=
  match t.get? place with
  | some (.file old) =>
    t.put place (.file (old.take offset ++ (bs ++ old.drop (offset + bs.length))))
  | _ => t

def makeDirectory (t : FileTree) (path : Path) : Except IoError FileTree := do
  let place ← t.resolve path
  match t.get? place with
  | some _ => .error .fileExists
  | none => .ok (t.put place .directory)

def isDirectory (t : FileTree) (path : Path) : Bool :=
  match t.resolve path with
  | .ok place => t.get? place == some .directory
  | .error _ => false

/-- Makes a directory and those above it that are missing, at most `depth` of them. An existing
directory will do. What has been made stays if a later one cannot be. -/
def makeDirectoriesUpTo (t : FileTree) (path : Path) : Nat → Except IoError Unit × FileTree
  | 0 => (.ok (), t)
  | depth + 1 =>
    if path.isEmpty then (.ok (), t)
    else match t.makeDirectory path with
      | .ok t => (.ok (), t)
      | .error e =>
        if e.kind = .notFound then
          match path.parent? with
          | none => (.error (.worded .uncategorized "failed to create whole tree"), t)
          | some above =>
            match t.makeDirectoriesUpTo above depth with
            | (.error e, t) => (.error e, t)
            | (.ok _, t) =>
              match t.makeDirectory path with
              | .ok t => (.ok (), t)
              | .error e => (if t.isDirectory path then .ok () else .error e, t)
        else (if t.isDirectory path then .ok () else .error e, t)

def makeDirectories (t : FileTree) (path : Path) : Except IoError Unit × FileTree :=
  t.makeDirectoriesUpTo path (path.length + 1)

def absolutePath (t : FileTree) (path : Path) : Path :=
  if path.isAbsolute then path
  else t.workingDirectory.flatMap (Bytes.slash :: ·) ++ Bytes.slash :: path

/-- Whether a directory for passing use can be made inside a directory. Its name has ten letters,
and it is made under its path from the root, which is not to be too long either. -/
def checkScratch (t : FileTree) (directory : Path) : Except IoError Unit := do
  let path := Path.join directory (Bytes.ofString ".tmpXXXXXX")
  checkPath (t.absolutePath path)
  let _ ← t.resolveParent path

end FileTree

end MapReduce
