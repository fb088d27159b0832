import MapReduce.FileTree
import MapReduce.Sink

/-!
Copying files to writers. A file is read block by block, and reading it may fail when some blocks
have been handed on already.
-/
namespace MapReduce

/-- How a file is read to its end. -/
structure Readout where
  blocks : List Bytes
  /-- What makes the reading end early. -/
  failure : Option IoError
  /-- Whether the system moves the blocks itself, past the buffer of the writer. -/
  direct : Bool
  deriving DecidableEq, Repr

namespace Readout

def bytes (r : Readout) : Bytes :=
  r.blocks.flatten

/-- What is read is there, from the beginning on, and it is all of it if nothing fails. -/
def IsOf (r : Readout) : Except IoError Bytes → Prop
  | .ok contents => r.bytes <+: contents ∧ (r.failure = none → r.bytes = contents)
  | .error e => r.bytes = [] ∧ r.failure = some e

variable {W : Type}

def copyBlocks (write : W → Bytes → Except IoError Unit × W) (failure : Option IoError)
    (count : Nat) (w : W) : List Bytes → Except IoError Nat × W
  | [] =>
    match failure with
    | none => (.ok count, w)
    | some e => (.error e, w)
  | block :: rest =>
    match write w block with
    | (.error e, w) => (.error e, w)
    | (.ok _, w) => copyBlocks write failure (count + block.length) w rest

/-- Writes all that is read. Gives the number of bytes. -/
def copy (write : W → Bytes → Except IoError Unit × W) (r : Readout) (w : W) :
    Except IoError Nat × W :=
  copyBlocks write r.failure 0 w r.blocks

end Readout

/-- What files are kept on, which decides how they are read. -/
structure Medium where
  readout : Location → Except IoError Bytes → Readout
  isOf : ∀ place stored, (readout place stored).IsOf stored

/-- Files are read in one piece, and whatever can be read is. -/
def Medium.sound : Medium where
  readout _ stored :=
    match stored with
    | .ok contents => ⟨[contents], none, true⟩
    | .error e => ⟨[], some e, true⟩
  isOf _ stored := by cases stored <;> simp [Readout.IsOf, Readout.bytes]

class Writer (W : Type) where
  copy : Readout → W → Except IoError Nat × W
  flush : W → Except IoError Unit × W

instance : Writer Sink where
  copy r out := r.copy Sink.write out
  flush out := (out.flush, out)

/-- The buffer is emptied before anything is moved past it. -/
def BlockWriter.copy (r : Readout) (w : BlockWriter) : Except IoError Nat × BlockWriter :=
  if r.direct then
    match w.release with
    | (.error e, w) => (.error e, w)
    | (.ok _, w) =>
      let (result, sink) := r.copy Sink.write w.sink
      (result, { w with sink })
  else r.copy BlockWriter.write w

instance : Writer BlockWriter where
  copy := BlockWriter.copy
  flush := BlockWriter.flush

end MapReduce
