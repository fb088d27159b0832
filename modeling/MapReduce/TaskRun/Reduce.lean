import MapReduce.Sorter
import MapReduce.TaskRun.Map

/-!
Running a reduce task: the lines of the input are sorted and read as records, the values of each key
gathered, and the reduce function is called once for each key.
-/
namespace MapReduce.ReduceTask

def readLines (contents : Bytes) : Except IoError (List Bytes) :=
  match Utf8.decode contents with
  | .error _ => .error (.worded .invalidData "stream did not contain valid UTF-8")
  | .ok _ =>
    .ok ((Line.split Bytes.newline contents).map (Line.withoutReturn Bytes.carriageReturn))

/-- The group of the key that a reduce task is at. It starts with one value; newer ones are put in
front. -/
structure OpenGroup where
  key : Bytes
  latest : Bytes
  earlier : List Bytes

namespace OpenGroup

def start (r : Record) : OpenGroup :=
  ⟨r.key, r.value, []⟩

def add (group : OpenGroup) (value : Bytes) : OpenGroup :=
  ⟨group.key, value, group.latest :: group.earlier⟩

/-- The values in the order in which they were added. -/
def values (group : OpenGroup) : List Bytes :=
  (group.latest :: group.earlier).reverse

end OpenGroup

/-- How far a reduce task has come: the open group, the number of keys it is done with, and the
output. -/
structure Progress where
  group : Option OpenGroup
  keys : Nat
  writer : BlockWriter

/-- Reduces one group and writes the result down. -/
def emit (reduce : ReduceFunction) (aux : Bytes) (writer : BlockWriter) (key : Bytes)
    (values : List Bytes) : Except TaskError Unit × BlockWriter :=
  match reduce key values aux with
  | .error e => (.error (.workload e), writer)
  | .ok result =>
    match writer.write result with
    | (.error e, writer) => (.error (.write e), writer)
    | (.ok _, writer) => (.ok (), writer)

namespace Progress

/-- Reduces the open group, which is complete. -/
def finishGroup (reduce : ReduceFunction) (aux : Bytes) (p : Progress) :
    Except TaskError Unit × Progress :=
  match p.group with
  | none => (.ok (), p)
  | some group =>
    match emit reduce aux p.writer group.key group.values with
    | (.error cause, writer) => (.error cause, ⟨none, p.keys, writer⟩)
    | (.ok _, writer) => (.ok (), ⟨none, p.keys + 1, writer⟩)

/-- A record of another key than that of the open group completes the group and opens its own. -/
def add (reduce : ReduceFunction) (aux : Bytes) (p : Progress) (r : Record) :
    Except TaskError Unit × Progress :=
  match p.group with
  | none => (.ok (), ⟨some (.start r), p.keys, p.writer⟩)
  | some group =>
    if group.key = r.key then (.ok (), ⟨some (group.add r.value), p.keys, p.writer⟩)
    else
      match p.finishGroup reduce aux with
      | (.error cause, p) => (.error cause, p)
      | (.ok _, p) => (.ok (), ⟨some (.start r), p.keys, p.writer⟩)

end Progress

/-- All lines have been given out, so the open group is complete. -/
def finish (reduce : ReduceFunction) (aux : Bytes) (output : Path) (p : Progress) :
    Except TaskError Nat × BlockWriter :=
  match p.finishGroup reduce aux with
  | (.error cause, p) => (.error cause, p.writer)
  | (.ok _, p) =>
    match p.writer.flush with
    | (.ok _, writer) => (.ok p.keys, writer)
    | (.error e, writer) => (.error (.file "write" output e), writer)

/-- Goes on with sorted lines. The group that is not complete at a bad line, or where the lines end
early, is left out. -/
def emitFrom (reduce : ReduceFunction) (aux : Bytes) (input output : Path)
    (failure : Option IoError) (p : Progress) : List Bytes → Except TaskError Nat × BlockWriter
  | [] =>
    match failure with
    | some e => (.error (.sortInput input e), p.writer)
    | none => finish reduce aux output p
  | line :: rest =>
    match Record.split line with
    | .error e => (.error (.badRecord input e), p.writer)
    | .ok r =>
      match p.add reduce aux r with
      | (.error cause, p) => (.error cause, p.writer)
      | (.ok _, p) => emitFrom reduce aux input output failure p rest

/-- Reduces sorted lines. -/
def emitSorted (reduce : ReduceFunction) (aux : Bytes) (input output : Path)
    (writer : BlockWriter) (sorted : Sorted) : Except TaskError Nat × BlockWriter :=
  emitFrom reduce aux input output sorted.failure ⟨none, 0, writer⟩ sorted.lines

def directoryOf (path : Path) : Path :=
  match path.parent? with
  | some above => if above.isEmpty then [0x2E] else above
  | none => [0x2E]

/-- Reduces the records of the file `input` into the file `output`, which is not touched before
the sorter has taken in the input. Gives the number of keys. -/
def runThrough (sorter : Sorter) (reduce : ReduceFunction) (aux : Bytes) (input output : Path)
    (t : FileTree) : Except TaskError Nat × FileTree :=
  match t.openFile input with
  | .error e => (.error (.file "open" input e), t)
  | .ok source =>
    match t.checkScratch (directoryOf output) with
    | .error e => (.error (.sortSetup e), t)
    | .ok _ =>
      match sorter.sort (t.read source >>= readLines) with
      | .error e => (.error (.sortInput input e), t)
      | .ok sorted =>
        match t.create output with
        | .error e => (.error (.file "create" output e), t)
        | .ok (place, t) =>
          let (result, writer) :=
            emitSorted reduce aux input output (.ofSink (t.sinkAt place)) sorted
          (result, t.writeAt place 0 writer.closed.contents)

/-- Reduces records that there is memory to sort in. -/
def run (reduce : ReduceFunction) (aux : Bytes) (input output : Path) (t : FileTree) :
    Except TaskError Nat × FileTree :=
  runThrough .inMemory reduce aux input output t

end MapReduce.ReduceTask
