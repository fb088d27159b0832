import MapReduce.Proofs.LineReader
import MapReduce.Proofs.Sink

/-!
# Lines read and written back

Bytes are read line by line into one buffer, each line in place of the one before, until there is no
more. Whatever the size of the blocks they are read in, the lines are the same, and written out again
they are these bytes, except that a last line without a newline gets one. So reading and writing once
more changes nothing.
-/

namespace MapReduce

namespace Bytes

/-- These bytes with a newline behind the last line, if there is a last line that lacks one. -/
def completed (bs : Bytes) : Bytes :=
  if bs = [] ∨ bs.getLast? = some newline then bs else bs ++ [newline]

@[simp]
theorem completed_nil : completed [] = [] := rfl

theorem completed_of_not_mem {a : Bytes} (ha : newline ∉ a) (hne : a ≠ []) :
    completed a = a.terminate := by
  apply if_neg
  rintro (h | h)
  · exact hne h
  · exact ha (List.mem_of_getLast? h)

/-- Whether the last line lacks a newline is up to what comes behind the first. -/
theorem completed_append_newline (a b : Bytes) :
    completed (a ++ newline :: b) = a.terminate ++ completed b := by
  cases b with
  | nil => simp [completed, terminate]
  | cons x b =>
      have hlast : (a ++ newline :: x :: b).getLast? = (x :: b).getLast? := by
        simp [List.getLast?_append, List.getLast?_cons]
      simp only [completed, hlast, terminate, List.append_eq_nil_iff, reduceCtorEq, and_false,
        false_or]
      split <;> simp

theorem flatMap_terminate_lines (bs : Bytes) : (lines bs).flatMap terminate = completed bs := by
  induction bs using Line.induction_on newline with
  | hlast a ha =>
      by_cases hne : a = []
      · simp [hne]
      · simp [lines_of_not_mem ha hne, completed_of_not_mem ha hne]
  | hline a b ha ih =>
      rw [lines_append_newline ha, List.flatMap_cons, ih, completed_append_newline]

theorem lines_completed (bs : Bytes) : lines (completed bs) = lines bs := by
  rw [← flatMap_terminate_lines, lines_flatMap_terminate (not_mem_of_mem_lines bs)]

end Bytes

/-! ### Writing back -/

namespace BlockWriter

variable {w : BlockWriter} {bs : Bytes}

/-- Writes lines up to the first that cannot be written. -/
def writeLines (w : BlockWriter) : List Bytes → Except IoError Unit × BlockWriter
  | [] => (.ok (), w)
  | line :: rest =>
    match w.writeLine line with
    | (.ok _, w) => w.writeLines rest
    | failed => failed

theorem Holds.writeLines_ordinary (h : w.Holds false bs) (lines : List Bytes) :
    ∃ w', w.writeLines lines = (.ok (), w')
      ∧ w'.Holds false (bs ++ lines.flatMap Bytes.terminate) := by
  induction lines generalizing w bs with
  | nil => exact ⟨w, rfl, by simpa using h⟩
  | cons line lines ih =>
      obtain ⟨w₁, hline⟩ := h.writeLine_ordinary line
      obtain ⟨w', hrest, hholds⟩ := ih (h.writeLine hline)
      refine ⟨w', ?_, ?_⟩
      · rw [BlockWriter.writeLines, hline]
        exact hrest
      · rwa [List.flatMap_cons, ← List.append_assoc]

end BlockWriter

/-! ### Reading into a buffer -/

/-- A reader and the buffer that its lines are read into. -/
structure LineBuffer where
  reader : LineReader
  line : Bytes

namespace LineBuffer

variable {b b' b'' : LineBuffer} {l : Bytes} {lines lines' : List Bytes}

def clear (b : LineBuffer) : LineBuffer :=
  { b with line := [] }

/-- Adds what the reader has up to and with the next newline, or to the end. -/
def extend (b : LineBuffer) : LineBuffer :=
  let (line, reader) := b.reader.readThrough b.line
  ⟨reader, line⟩

def dropNewline (b : LineBuffer) : LineBuffer :=
  if b.line.getLast? == some Bytes.newline then { b with line := b.line.dropLast } else b

/-- Puts the next line in the place of the one before; whether there was one. -/
def advance (b : LineBuffer) : Bool × LineBuffer :=
  let read := b.clear.extend
  if read.line.isEmpty then (false, read) else (true, read.dropNewline)

/-- Advanced until there is no further line, the buffer has held these lines one after the other.
There is no bound on the number of steps. -/
inductive Reads : LineBuffer → List Bytes → LineBuffer → Prop
  | ended {b b' : LineBuffer} (h : b.advance = (false, b')) : Reads b [] b'
  | line {b next b' : LineBuffer} {lines : List Bytes} (h : b.advance = (true, next))
      (rest : Reads next lines b') : Reads b (next.line :: lines) b'

/-- What was in the buffer before is of no account. -/
theorem advance_eq (b : LineBuffer) :
    b.advance = match b.reader.next with
      | some (line, reader) => (true, ⟨reader, line⟩)
      | none => (false, b.clear.extend) := by
  rcases hread : b.reader.readThrough [] with ⟨line, reader⟩
  have hextend : b.clear.extend = ⟨reader, line⟩ := by simp only [extend, clear, hread]
  cases line with
  | nil => simp [advance, LineReader.next, hextend, hread]
  | cons x line =>
      simp only [advance, LineReader.next, hextend, hread, dropNewline, List.isEmpty_cons,
        Bool.false_eq_true, if_false]
      split <;> rfl

theorem advance_of_nil (hcapacity : 0 < b.reader.capacity) (hpending : b.reader.pending = []) :
    ∃ b', b.advance = (false, b') ∧ b'.reader.pending = [] := by
  obtain ⟨r, hread, -, hrest, -⟩ :=
    LineReader.readThrough_of_not_mem [] hcapacity (by simp [hpending])
  refine ⟨b.clear.extend, by rw [advance_eq, LineReader.next_of_nil hcapacity hpending], ?_⟩
  simpa only [extend, clear, hread] using hrest

/-- One step: the first line of what is pending is in the buffer, and the others are still pending. -/
theorem advance_of_lines_cons (hcapacity : 0 < b.reader.capacity)
    (hlines : Bytes.lines b.reader.pending = l :: lines) :
    ∃ r, b.advance = (true, ⟨r, l⟩) ∧ r.capacity = b.reader.capacity
      ∧ Bytes.lines r.pending = lines := by
  obtain ⟨r, hnext, hcap, hrest, -⟩ := LineReader.next_of_lines_cons hcapacity hlines
  exact ⟨r, by rw [advance_eq, hnext], hcap, hrest⟩

/-- Reading ends, behind the last of the lines. -/
theorem exists_reads (hcapacity : 0 < b.reader.capacity) :
    ∃ b', b.Reads (Bytes.lines b.reader.pending) b' ∧ b'.reader.pending = [] := by
  generalize hlines : Bytes.lines b.reader.pending = lines
  induction lines generalizing b with
  | nil =>
      obtain ⟨b', hended, hpending⟩ := advance_of_nil hcapacity (Bytes.lines_eq_nil_iff.mp hlines)
      exact ⟨b', .ended hended, hpending⟩
  | cons l lines ih =>
      obtain ⟨r, hline, hcap, hrest⟩ := advance_of_lines_cons hcapacity hlines
      obtain ⟨b', hreads, hpending⟩ := ih (b := ⟨r, l⟩) (hcap ▸ hcapacity) hrest
      exact ⟨b', .line hline hreads, hpending⟩

theorem Reads.unique (h : b.Reads lines b') (h' : b.Reads lines' b'') : lines = lines' := by
  induction h generalizing lines' with
  | ended hended =>
      cases h' with
      | ended => rfl
      | line hline => simp [hended] at hline
  | line hline _ ih =>
      cases h' with
      | ended hended => simp [hline] at hended
      | line hline' hrest =>
          obtain rfl := (Prod.mk.inj (hline.symm.trans hline')).2
          rw [ih hrest]

/-- Read to the end, the buffer comes by these lines and no others, and written back they are
`out`. -/
structure Rewrites (b : LineBuffer) (lines : List Bytes) (out : Bytes) : Prop where
  reads : ∃ b', b.Reads lines b' ∧ b'.reader.pending = []
  only : ∀ lines' b', b.Reads lines' b' → lines' = lines
  lines_eq : b.reader.lines = lines
  newline_notMem : ∀ line ∈ lines, Bytes.newline ∉ line
  writes : ∀ (w : BlockWriter) (before : Bytes), w.Holds false before →
    ∃ mid w', w.writeLines lines = (.ok (), mid) ∧ mid.flush = (.ok (), w')
      ∧ w'.sink.contents = before ++ out

theorem rewrites_pending (hcapacity : 0 < b.reader.capacity) :
    b.Rewrites (Bytes.lines b.reader.pending) b.reader.pending.completed := by
  obtain ⟨b', hreads, hpending⟩ := exists_reads hcapacity
  refine ⟨⟨b', hreads, hpending⟩, ?_, ?_, ?_, ?_⟩
  · intro lines' b'' hreads'
    exact hreads'.unique hreads
  · exact LineReader.lines_eq b.reader hcapacity
  · exact Bytes.not_mem_of_mem_lines b.reader.pending
  · intro w before hw
    obtain ⟨mid, hwrite, hmid⟩ := hw.writeLines_ordinary (Bytes.lines b.reader.pending)
    obtain ⟨w', hflush⟩ := hmid.flush_ordinary
    obtain ⟨-, hcontents⟩ := hmid.flush hflush
    exact ⟨mid, w', hwrite, hflush, by rw [hcontents, Bytes.flatMap_terminate_lines]⟩

/-- **Nothing is lost.** All bytes have their lines, which every reader comes by, whatever the size of
its blocks, however much of the bytes it has taken over already, and whatever was in the buffer.
Written back the lines are the bytes, completed; and what was written back has the same lines and is
written back as it is. -/
theorem rewrites_completed (bs : Bytes) :
    ∃ lines, ∀ b : LineBuffer, 0 < b.reader.capacity →
      (b.reader.pending = bs → b.Rewrites lines bs.completed)
        ∧ (b.reader.pending = bs.completed → b.Rewrites lines bs.completed) := by
  refine ⟨Bytes.lines bs, fun b hcapacity => ⟨?_, ?_⟩⟩
  · rintro rfl
    exact rewrites_pending hcapacity
  · intro hpending
    have hlines : Bytes.lines b.reader.pending = Bytes.lines bs := by
      rw [hpending, Bytes.lines_completed]
    have hcompleted : b.reader.pending.completed = bs.completed := by
      rw [← Bytes.flatMap_terminate_lines, hlines, Bytes.flatMap_terminate_lines]
    rw [← hlines, ← hcompleted]
    exact rewrites_pending hcapacity

/-- An empty line, a last line without a newline, and blocks that end within a line and at its end. -/
theorem rewrites_completed_smallBlocks :
    (⟨⟨2, [], Bytes.ofString "one\n\nthree"⟩, Bytes.ofString "old"⟩ : LineBuffer).Rewrites
        (["one", "", "three"].map Bytes.ofString) (Bytes.ofString "one\n\nthree\n")
      ∧ (⟨⟨4, [], Bytes.ofString "one\n\nthree\n"⟩, []⟩ : LineBuffer).Rewrites
        (["one", "", "three"].map Bytes.ofString) (Bytes.ofString "one\n\nthree\n") := by
  obtain ⟨lines, h⟩ := rewrites_completed (Bytes.ofString "one\n\nthree")
  have hfirst := (h ⟨⟨2, [], Bytes.ofString "one\n\nthree"⟩, Bytes.ofString "old"⟩
    (by decide)).1 rfl
  have hsecond := (h ⟨⟨4, [], Bytes.ofString "one\n\nthree\n"⟩, []⟩ (by decide)).2
    (by decide +kernel)
  obtain rfl : lines = ["one", "", "three"].map Bytes.ofString := by
    rw [← hfirst.lines_eq, LineReader.lines_eq _ (by decide)]
    decide +kernel
  have hcompleted : (Bytes.ofString "one\n\nthree").completed
      = Bytes.ofString "one\n\nthree\n" := by decide +kernel
  rw [hcompleted] at hfirst hsecond
  exact ⟨hfirst, hsecond⟩

end LineBuffer

end MapReduce
