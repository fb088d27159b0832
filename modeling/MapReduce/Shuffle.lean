import MapReduce.Partition
import MapReduce.Shard

/-!
Bringing records that belong together to one place: each record of the map output goes to the
reduce input that owns its key.
-/
namespace MapReduce

inductive ShuffleError where
  | io (e : IoError)
  | malformed (path : Path) (line : Nat) (e : RecordError)
  deriving DecidableEq, Repr

def ShuffleError.message : ShuffleError → String
  | .io e => e.message
  | .malformed path line e => s!"{path.show}:{line}: {e.message}"

def ShuffleError.causes : ShuffleError → List String
  | .io _ => []
  | .malformed _ _ e => [e.message]

namespace Shuffle

/-- Sends the line of a record to the output that owns the key, and counts it there. -/
def send (hash : Bytes → Nat) (key line : Bytes) (counts : List Nat) (files : OutputFiles)
    (t : FileTree) : Except (Abort ShuffleError) (List Nat) × OutputFiles × FileTree :=
  match partitionOf hash key files.length with
  | .error e => (.error (.fault e), files, t)
  | .ok owner =>
    let (result, files, t) := files.writeCounted owner line counts t
    (result.mapError (·.map .io), files, t)

/-- Sends the lines of an input each to the output that owns its key, up to the first that is no
record. A line is read only when those before it have been written, so an input that is an output
too can feed itself; it does so for at most `fuel` lines. -/
def routeLines (hash : Bytes → Nat) (path : Path) (number : Nat) (reader : FileReader)
    (counts : List Nat) (files : OutputFiles) (t : FileTree) :
    Nat → Except (Abort ShuffleError) (List Nat) × OutputFiles × FileTree
  | 0 => (.error (.failed (.io .fileTooLarge)), files, t)
  | fuel + 1 =>
    match reader.next t with
    | .error e => (.error (.failed (.io e)), files, t)
    | .ok none => (.ok counts, files, t)
    | .ok (some (line, reader)) =>
      match Record.split line with
      | .error e => (.error (.failed (.malformed path number e)), files, t)
      | .ok record =>
        match send hash record.key line counts files t with
        | (.error e, files, t) => (.error e, files, t)
        | (.ok counts, files, t) => routeLines hash path (number + 1) reader counts files t fuel

/-- No file has more lines than this, whatever is written to it. -/
def lineLimit (t : FileTree) (place : Location) : Nat :=
  match t.read place with
  | .ok contents => contents.length + FileTree.sizeLimit
  | .error _ => FileTree.sizeLimit

def routeFiles (hash : Bytes → Nat) (counts : List Nat) (t : FileTree) (files : OutputFiles) :
    List Path → Except (Abort ShuffleError) (List Nat) × OutputFiles × FileTree
  | [] => (.ok counts, files, t)
  | path :: rest =>
    match t.openFile path with
    | .error e => (.error (.failed (.io (e.annotate "open" path))), files, t)
    | .ok source =>
      match routeLines hash path 1 (.ofPlace source) counts files t (lineLimit t source) with
      | (.error e, files, t) => (.error e, files, t)
      | (.ok counts, files, t) => routeFiles hash counts t files rest

/-- Shuffles files, and gives the number of records in each output. Looks before it divides and
before it asks for an output. -/
def attempt (hash : Bytes → Nat) (inputs outputs : List Path) (t : FileTree) :
    Except (Abort ShuffleError) (List Nat) × FileTree :=
  match OutputFiles.create outputs t with
  | (.error e, t) => (.error (.failed (.io e)), t)
  | (.ok files, t) =>
    match routeFiles hash (.replicate files.length 0) t files inputs with
    | (.error e, files, t) => (.error e, files.close t)
    | (.ok counts, files, t) =>
      let (result, files, t) := files.flush t
      ((result.mapError (.failed ∘ .io)).map fun _ => counts, files.close t)

/-- A shuffle in the background. -/
def run (hash : Bytes → Nat) (inputs outputs : List Path) (t : FileTree) :
    Except ShuffleError (List Nat) × FileTree :=
  let (result, t) := attempt hash inputs outputs t
  (result.mapError (·.report .io), t)

end Shuffle

end MapReduce
