import MapReduce.Bytes

/-!
Reading lines through a buffer that is refilled in blocks.
-/
namespace MapReduce

/-- A source read in blocks of `capacity` bytes, at least one. -/
structure LineReader where
  capacity : Nat
  buffered : Bytes
  source : Bytes
  deriving Repr

namespace LineReader

def ofBytes (capacity : Nat) (bs : Bytes) : LineReader :=
  ⟨max 1 capacity, [], bs⟩

def remaining (r : LineReader) : Nat :=
  r.buffered.length + r.source.length

def fill (r : LineReader) : LineReader :=
  if r.buffered.isEmpty then
    { r with buffered := r.source.take r.capacity, source := r.source.drop r.capacity }
  else r

theorem remaining_fill (r : LineReader) : r.fill.remaining = r.remaining := by
  unfold fill remaining
  split
  · rename_i h
    simp only [List.isEmpty_iff] at h
    simp only [h, List.length_take, List.length_drop, List.length_nil]
    omega
  · rfl

/-- Reads up to and with the next newline, or to the end, after what was read before. -/
def readThrough (r : LineReader) (before : Bytes) : Bytes × LineReader :=
  match _h : r.fill.buffered with
  | [] => (before, r.fill)
  | b :: bs =>
    let line := (b :: bs).takeWhile (· != Bytes.newline)
    match (b :: bs).dropWhile (· != Bytes.newline) with
    | [] => readThrough { r.fill with buffered := [] } (before ++ line)
    | _ :: rest => (before ++ line ++ [Bytes.newline], { r.fill with buffered := rest })
termination_by r.remaining
decreasing_by
  have whole := remaining_fill r
  simp only [remaining, _h, List.length_cons, List.length_nil] at whole ⊢
  omega

def next (r : LineReader) : Option (Bytes × LineReader) :=
  match r.readThrough [] with
  | ([], _) => none
  | (line, r) =>
    some (if line.getLast? == some Bytes.newline then line.dropLast else line, r)

/-- At most `n` lines, after the lines so far, last first. -/
def linesUpTo (r : LineReader) (done : List Bytes) : Nat → List Bytes
  | 0 => done.reverse
  | n + 1 =>
    match r.next with
    | none => done.reverse
    | some (line, r) => r.linesUpTo (line :: done) n

/-- Every line; there are no more lines than bytes. -/
def lines (r : LineReader) : List Bytes :=
  r.linesUpTo [] r.remaining

end LineReader

end MapReduce
