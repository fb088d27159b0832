import MapReduce.FileTree
import MapReduce.Sink
import MapReduce.TaskRun.Error

/-!
Running a map task: the whole input file is one record for the map function, and the records it
emits are written out in chunks.
-/
namespace MapReduce

def FileTree.sinkAt (t : FileTree) (place : Location) : Sink :=
  if t.get? place = some .fullDevice then .full else .unbounded

namespace MapTask

/-- Records are handed to the writer once they come to this many bytes. -/
def chunkSize : Nat := 65536

structure Emission where
  writer : BlockWriter
  /-- Encoded records of the current chunk, the last one first. -/
  pending : List Bytes
  pendingSize : Nat
  count : Nat

namespace Emission

def begin (writer : BlockWriter) : Emission :=
  ⟨writer, [], 0, 0⟩

def add (e : Emission) (line : Bytes) : Emission :=
  { e with
    pending := line :: e.pending
    pendingSize := e.pendingSize + line.length
    count := e.count + 1 }

def writeChunk (e : Emission) : Except TaskError Unit × Emission :=
  match e.writer.write e.pending.reverse.flatten with
  | (.ok _, writer) => (.ok (), { e with writer, pending := [], pendingSize := 0 })
  | (.error cause, writer) => (.error (.write cause), { e with writer })

def addAll (e : Emission) :
    List (Except WorkloadError Record) → Except TaskError Unit × Emission
  | [] => (.ok (), e)
  | .error cause :: _ => (.error (.workload cause), e)
  | .ok record :: rest =>
    match record.encode with
    | .error cause => (.error (.unwritable cause), e)
    | .ok line =>
      let e := e.add line
      if e.pendingSize < chunkSize then e.addAll rest
      else
        match e.writeChunk with
        | (.ok _, e) => e.addAll rest
        | failed => failed

def run (e : Emission) (output : Path) (items : List (Except WorkloadError Record)) :
    Except TaskError Nat × BlockWriter :=
  match e.addAll items with
  | (.error cause, e) => (.error cause, e.writer)
  | (.ok _, e) =>
    match e.writeChunk with
    | (.error cause, e) => (.error cause, e.writer)
    | (.ok _, e) =>
      match e.writer.flush with
      | (.ok _, writer) => (.ok e.count, writer)
      | (.error cause, writer) => (.error (.file "write" output cause), writer)

end Emission

/-- Maps the file `input` to records in the file `output`. The key of the one input record is the
path of the file. Gives the number of records. -/
def run (map : MapFunction) (aux : Bytes) (input output : Path) (t : FileTree) :
    Except TaskError Nat × FileTree :=
  match t.openFile input >>= t.read with
  | .error e => (.error (.file "read" input e), t)
  | .ok contents =>
    match t.create output with
    | .error e => (.error (.file "create" output e), t)
    | .ok (place, t) =>
      match map ⟨Bytes.ofString input.show, contents⟩ aux with
      | .error e => (.error (.workload e), t)
      | .ok items =>
        let (result, writer) :=
          (Emission.begin (.ofSink (t.sinkAt place))).run output items
        (result, t.writeAt place 0 writer.closed.contents)

end MapTask

end MapReduce
