import MapReduce.TaskRun.Map

/-!
A set of files written side by side, all of them created before anything is written.

Each file has a writer of its own, which reaches the file block by block. Two writers of one file
do not know of each other: each goes on from the offset that it has come to itself.
-/
namespace MapReduce

/-- What the caller of a background task hears: a fault ends such a task and nothing else. -/
def Abort.report {ε : Type} (ofIo : IoError → ε) : Abort ε → ε
  | .failed e => e
  | .fault e => ofIo (.worded .other s!"background task failed: {e.message}")

structure OutputFile where
  path : Path
  place : Location
  /-- How many bytes the writer has put into the file. -/
  offset : Nat
  writer : BlockWriter

namespace OutputFile

/-- Puts what the writer has let go of into the file, behind what it put there before. -/
def deliver (file : OutputFile) (t : FileTree) : OutputFile × FileTree :=
  match file.writer.sink.contents with
  | [] => (file, t)
  | bs =>
    let writer := { file.writer with sink := file.writer.sink.emptied }
    ({ file with writer, offset := file.offset + bs.length }, t.writeAt file.place file.offset bs)

def writeLine (file : OutputFile) (line : Bytes) (t : FileTree) :
    Except IoError Unit × OutputFile × FileTree :=
  match file.writer.writeLine line with
  | (.error e, writer) => (.error (e.annotate "write" file.path), { file with writer }.deliver t)
  | (.ok _, writer) => (.ok (), { file with writer }.deliver t)

def flush (file : OutputFile) (t : FileTree) : Except IoError Unit × OutputFile × FileTree :=
  match file.writer.flush with
  | (.error e, writer) => (.error (e.annotate "flush" file.path), { file with writer }.deliver t)
  | (.ok _, writer) => (.ok (), { file with writer }.deliver t)

/-- Gives the file up: what its writer holds still reaches it, if it can. -/
def close (file : OutputFile) (t : FileTree) : FileTree :=
  ({ file with writer := file.writer.release.2 }.deliver t).2

end OutputFile

abbrev OutputFiles := List OutputFile

namespace OutputFiles

def createAll (t : FileTree) : List Path → Except IoError OutputFiles × FileTree
  | [] => (.ok [], t)
  | path :: rest =>
    match t.create path with
    | .error e => (.error (e.annotate "create" path), t)
    | .ok (place, created) =>
      match createAll created rest with
      | (.ok files, created) =>
        (.ok (⟨path, place, 0, .ofSink (created.sinkAt place)⟩ :: files), created)
      | failed => failed

def create (paths : List Path) (t : FileTree) : Except IoError OutputFiles × FileTree :=
  if paths.isEmpty then
    (.error (.worded .invalidInput "at least one destination file is required"), t)
  else createAll t paths

def writeLine (index : Nat) (line : Bytes) (t : FileTree) :
    OutputFiles → Except IoError Unit × OutputFiles × FileTree
  | [] => (.ok (), [], t)
  | file :: rest =>
    match index with
    | 0 =>
      let (result, file, t) := file.writeLine line t
      (result, file :: rest, t)
    | index + 1 =>
      let (result, rest, t) := writeLine index line t rest
      (result, file :: rest, t)

def countAt (index : Nat) (counts : List Nat) : Except Fault (List Nat) := do
  checkIndex counts.length index
  return counts.modify index (· + 1)

/-- Writes a line to the file with this index, and counts it there. -/
def writeCounted (index : Nat) (line : Bytes) (counts : List Nat) (files : OutputFiles)
    (t : FileTree) : Except (Abort IoError) (List Nat) × OutputFiles × FileTree :=
  match checkIndex files.length index with
  | .error e => (.error (.fault e), files, t)
  | .ok _ =>
    match files.writeLine index line t with
    | (.error e, files, t) => (.error (.failed e), files, t)
    | (.ok _, files, t) => ((countAt index counts).mapError .fault, files, t)

def flush (t : FileTree) : OutputFiles → Except IoError Unit × OutputFiles × FileTree
  | [] => (.ok (), [], t)
  | file :: rest =>
    match file.flush t with
    | (.error e, file, t) => (.error e, file :: rest, t)
    | (.ok _, file, t) =>
      let (result, rest, t) := flush t rest
      (result, file :: rest, t)

def close (files : OutputFiles) (t : FileTree) : FileTree :=
  files.foldl (fun t file => file.close t) t

end OutputFiles

end MapReduce
