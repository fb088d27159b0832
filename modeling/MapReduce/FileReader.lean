import MapReduce.FileTree
import MapReduce.LineReader

/-!
Reading the lines of a file that may grow meanwhile. A block is taken over as the file is at that
moment; a line that meets the end of the file ends there, and reading goes on behind it.
-/
namespace MapReduce

structure FileReader where
  place : Location
  position : Nat
  /-- Of those, the ones not yet handed out. -/
  buffered : Bytes
  deriving Repr

namespace FileReader

def blockSize : Nat := 8192

def ofPlace (place : Location) : FileReader :=
  ⟨place, 0, []⟩

def readNext (r : FileReader) (t : FileTree) : Except IoError (Option (Bytes × FileReader)) := do
  let contents ← t.read r.place
  let reader : LineReader := ⟨blockSize, r.buffered, contents.drop r.position⟩
  return reader.next.map fun (line, rest) =>
    (line, { r with position := contents.length - rest.source.length, buffered := rest.buffered })

/-- The next line without its newline, or nothing at the end of the file. Nothing is read while
there is a whole line in the buffer. -/
def next (r : FileReader) (t : FileTree) : Except IoError (Option (Bytes × FileReader)) :=
  match r.buffered.dropWhile (· != Bytes.newline) with
  | [] => r.readNext t
  | _ :: rest =>
    .ok (some (r.buffered.takeWhile (· != Bytes.newline), { r with buffered := rest }))

end FileReader

end MapReduce
