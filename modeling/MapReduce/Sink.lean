import MapReduce.IoError

/-!
Where bytes go: a sink that may run out of room, and a block writer that gathers small writes in
front of one.
-/
namespace MapReduce

structure Sink where
  /-- What was taken, the last piece first. -/
  taken : List Bytes
  /-- How many more bytes fit, if there is a bound. -/
  room : Option Nat
  whenFull : IoError
  flushError : Option IoError
  deriving DecidableEq, Repr

namespace Sink

def unbounded : Sink :=
  ⟨[], none, .noSpace, none⟩

def full : Sink :=
  ⟨[], some 0, .noSpace, none⟩

def contents (s : Sink) : Bytes :=
  s.taken.reverse.flatten

def emptied (s : Sink) : Sink :=
  { s with taken := [] }

/-- Takes as many of the bytes as fit; an error if that is not all of them. -/
def write (s : Sink) (bs : Bytes) : Except IoError Unit × Sink :=
  match s.room with
  | none => (.ok (), { s with taken := bs :: s.taken })
  | some room =>
    if bs.length ≤ room then
      (.ok (), { s with taken := bs :: s.taken, room := some (room - bs.length) })
    else (.error s.whenFull, { s with taken := bs.take room :: s.taken, room := some 0 })

def flush (s : Sink) : Except IoError Unit :=
  match s.flushError with
  | none => .ok ()
  | some e => .error e

end Sink

structure BlockWriter where
  sink : Sink
  /-- What has not been handed on, the last piece first. -/
  held : List Bytes
  heldSize : Nat
  deriving DecidableEq, Repr

namespace BlockWriter

def blockSize : Nat := 8192

def ofSink (sink : Sink) : BlockWriter :=
  ⟨sink, [], 0⟩

def release (w : BlockWriter) : Except IoError Unit × BlockWriter :=
  if w.heldSize = 0 then (.ok (), w)
  else
    let (result, sink) := w.sink.write w.held.reverse.flatten
    (result, ⟨sink, [], 0⟩)

def hold (w : BlockWriter) (bs : Bytes) : BlockWriter :=
  { w with held := bs :: w.held, heldSize := w.heldSize + bs.length }

/-- What does not fit beside the bytes held sends them on first; a whole block is never held. -/
def write (w : BlockWriter) (bs : Bytes) : Except IoError Unit × BlockWriter :=
  if w.heldSize + bs.length ≤ blockSize ∧ bs.length < blockSize then (.ok (), w.hold bs)
  else
    match w.release with
    | (.error e, w) => (.error e, w)
    | (.ok _, w) =>
      if bs.length < blockSize then (.ok (), w.hold bs)
      else
        let (result, sink) := w.sink.write bs
        (result, { w with sink })

/-- A line and its newline are two writes. -/
def writeLine (w : BlockWriter) (line : Bytes) : Except IoError Unit × BlockWriter :=
  match w.write line with
  | (.ok _, w) => w.write [Bytes.newline]
  | failed => failed

def flush (w : BlockWriter) : Except IoError Unit × BlockWriter :=
  match w.release with
  | (.ok _, w) => (w.sink.flush, w)
  | failed => failed

/-- What reaches the sink when the writer is given up: the bytes held still do, if they can. -/
def closed (w : BlockWriter) : Sink :=
  w.release.2.sink

end BlockWriter

end MapReduce
