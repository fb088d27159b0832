import MapReduce.FileReader
import MapReduce.OutputFiles

/-!
Dealing the lines of an input out to shards, one after the other in turn.
-/
namespace MapReduce.Shard

def readLines (contents : Bytes) : List Bytes :=
  (LineReader.ofBytes FileReader.blockSize contents).lines

/-- Deals lines out in turn, the first of them to shard `next`, and counts them. -/
def deal (next : Nat) (counts : List Nat) (files : OutputFiles) (t : FileTree) :
    List Bytes → Except (Abort IoError) (List Nat) × OutputFiles × FileTree
  | [] => (.ok counts, files, t)
  | line :: rest =>
    match files.writeCounted next line counts t with
    | (.error e, files, t) => (.error e, files, t)
    | (.ok counts, files, t) => deal ((next + 1) % counts.length) counts files t rest

/-- Splits the file `input` into the files `shards`. The input is opened first and read once every
shard exists. Gives the number of lines in each shard. -/
def run (input : Path) (shards : List Path) (t : FileTree) : Except IoError (List Nat) × FileTree :=
  match t.openFile input with
  | .error e => (.error (e.annotate "open" input), t)
  | .ok source =>
    match OutputFiles.create shards t with
    | (.error e, t) => (.error e, t)
    | (.ok files, t) =>
      match t.read source with
      | .error e => (.error e, files.close t)
      | .ok contents =>
        match deal 0 (.replicate files.length 0) files t (readLines contents) with
        | (.error e, files, t) => (.error (e.report id), files.close t)
        | (.ok counts, files, t) =>
          let (result, files, t) := files.flush t
          (result.map fun _ => counts, files.close t)

end MapReduce.Shard
