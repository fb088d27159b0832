import MapReduce.Copy
import MapReduce.TaskRun.Map

/-!
Joining the results of all reducers into one.
-/
namespace MapReduce.Combine

variable {W : Type} [Writer W]

/-- Copies files to a writer, one after the other. Gives the number of bytes. -/
def copyAll (medium : Medium) (t : FileTree) (total : Nat) (w : W) :
    List Path → Except IoError Nat × W
  | [] =>
    match Writer.flush w with
    | (.error e, w) => (.error e, w)
    | (.ok _, w) => (.ok total, w)
  | path :: rest =>
    match t.openFile path with
    | .error e => (.error (e.annotate "open" path), w)
    | .ok place =>
      match Writer.copy (medium.readout place (t.read place)) w with
      | (.error e, w) => (.error (e.annotate "copy" path), w)
      | (.ok count, w) => copyAll medium t (total + count) w rest

def intoWriter (medium : Medium) (inputs : List Path) (w : W) (t : FileTree) :
    Except IoError Nat × W :=
  copyAll medium t 0 w inputs

/-- Joins files into the file `output`, whose old contents are lost. What the writer still holds
when it is given up reaches the file, if it can. -/
def intoFileFrom (medium : Medium) (inputs : List Path) (output : Path) (t : FileTree) :
    Except IoError Nat × FileTree :=
  match t.create output with
  | .error e => (.error (e.annotate "create" output), t)
  | .ok (place, t) =>
    let (result, w) := intoWriter medium inputs (BlockWriter.ofSink (t.sinkAt place)) t
    (result, t.writeAt place 0 w.closed.contents)

def intoSink (inputs : List Path) (out : Sink) (t : FileTree) : Except IoError Nat × Sink :=
  intoWriter .sound inputs out t

def intoFile (inputs : List Path) (output : Path) (t : FileTree) : Except IoError Nat × FileTree :=
  intoFileFrom .sound inputs output t

end MapReduce.Combine
