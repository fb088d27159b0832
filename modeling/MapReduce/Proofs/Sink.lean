import MapReduce.Sink

/-!
# Written bytes

A sink takes what is written to it until it is full. A block writer in front of it hands everything
on in order, sooner or later, and what it holds when it is given up arrives too. So whatever has been
written to either, what arrives is the beginning of it that fits.

A sink behind an ordinary file takes every byte, and one behind the full device takes none. Up to
the first failure a block writer has put into such a sink, or holds back, exactly what was written
to it; after a flush nothing is held back. Behind an ordinary file nothing ever fails.
-/

namespace MapReduce

/-! ### Room -/

namespace Sink

variable {out w w' : Sink} {bs more : Bytes} {size : Nat} {e : IoError}

/-- So many bytes still fit. -/
def HasRoom (out : Sink) (size : Nat) : Prop :=
  ∀ room ∈ out.room, size ≤ room

instance (out : Sink) (size : Nat) : Decidable (out.HasRoom size) :=
  inferInstanceAs (Decidable (∀ room ∈ out.room, size ≤ room))

/-- As many of the bytes as still fit. -/
def fitting (out : Sink) (bs : Bytes) : Bytes :=
  match out.room with
  | none => bs
  | some room => bs.take room

theorem hasRoom_unbounded (size : Nat) : Sink.unbounded.HasRoom size := by
  simp [HasRoom, unbounded]

theorem flushError_unbounded : Sink.unbounded.flushError = none := rfl

theorem contents_unbounded : Sink.unbounded.contents = [] := rfl

theorem hasRoom_full : Sink.full.HasRoom size ↔ size = 0 := by
  simp [HasRoom, full]

theorem hasRoom_zero (out : Sink) : out.HasRoom 0 :=
  fun room _ => Nat.zero_le room

theorem HasRoom.mono {less : Nat} (h : out.HasRoom size) (hle : less ≤ size) : out.HasRoom less :=
  fun room hroom => Nat.le_trans hle (h room hroom)

theorem fitting_prefix (out : Sink) (bs : Bytes) : out.fitting bs <+: bs := by
  unfold fitting
  split
  · exact List.prefix_rfl
  · exact List.take_prefix _ _

theorem HasRoom.fitting (h : out.HasRoom bs.length) : out.fitting bs = bs := by
  unfold Sink.fitting
  split
  · rfl
  · next room hroom => exact List.take_of_length_le (h room hroom)

theorem fitting_append_of_not_hasRoom (h : ¬ out.HasRoom bs.length) (more : Bytes) :
    out.fitting (bs ++ more) = out.fitting bs := by
  rcases hroom : out.room with _ | room
  · simp [HasRoom, hroom] at h
  · have hshort : room < bs.length := by simpa [HasRoom, hroom] using h
    simp only [fitting, hroom]
    exact List.take_append_of_le_length (Nat.le_of_lt hshort)

theorem not_hasRoom_append (h : ¬ out.HasRoom bs.length) (more : Bytes) :
    ¬ out.HasRoom (bs ++ more).length :=
  fun hroom => h (hroom.mono (by simp))

/-! ### What a sink has taken -/

/-- `w` is what becomes of `out` when it takes these bytes, all of which fit. -/
structure Took (out : Sink) (bs : Bytes) (w : Sink) : Prop where
  fits : out.HasRoom bs.length
  contents : w.contents = out.contents ++ bs
  room : w.room = out.room.map (· - bs.length)
  whenFull : w.whenFull = out.whenFull
  flushError : w.flushError = out.flushError

theorem took_nil (out : Sink) : out.Took [] out where
  fits := out.hasRoom_zero
  contents := (List.append_nil _).symm
  room := by simp
  whenFull := rfl
  flushError := rfl

theorem contents_cons (taken : List Bytes) (room : Option Nat) (whenFull : IoError)
    (flushError : Option IoError) (more : Bytes) :
    (⟨more :: taken, room, whenFull, flushError⟩ : Sink).contents = taken.reverse.flatten ++ more := by
  simp [contents]

theorem Took.arrived (h : out.Took bs w) : w.contents = out.contents ++ out.fitting bs := by
  rw [h.contents, h.fits.fitting]

theorem Took.write_ok (h : out.Took bs w) (hok : w.write more = (.ok (), w')) :
    out.Took (bs ++ more) w' := by
  have hroom := h.room
  have hfits := h.fits
  have htaken : w.taken.reverse.flatten = out.contents ++ bs := h.contents
  unfold write at hok
  rcases hout : out.room with _ | room
  · rw [hout, Option.map_none] at hroom
    rw [hroom] at hok
    obtain rfl := (Prod.mk.inj hok).2
    refine ⟨by simp [HasRoom, hout], ?_, by simp [hout], h.whenFull, h.flushError⟩
    rw [contents_cons, htaken, List.append_assoc]
  · rw [hout, Option.map_some] at hroom
    have hle : bs.length ≤ room := hfits room hout
    rw [hroom] at hok
    dsimp only at hok
    split at hok
    · next hmore =>
        obtain rfl := (Prod.mk.inj hok).2
        have hlength : (bs ++ more).length ≤ room := by
          rw [List.length_append]
          omega
        refine ⟨by simpa [HasRoom, hout] using hlength, ?_, ?_, h.whenFull, h.flushError⟩
        · rw [contents_cons, htaken, List.append_assoc]
        · simp only [hout, Option.map_some, List.length_append, Nat.sub_sub]
    · cases (Prod.mk.inj hok).1

theorem Took.write_error (h : out.Took bs w) (herror : w.write more = (.error e, w')) :
    e = out.whenFull ∧ ¬ out.HasRoom (bs ++ more).length
      ∧ w'.contents = out.contents ++ out.fitting (bs ++ more) := by
  have hroom := h.room
  have hfits := h.fits
  have htaken : w.taken.reverse.flatten = out.contents ++ bs := h.contents
  unfold write at herror
  rcases hout : out.room with _ | room
  · rw [hout, Option.map_none] at hroom
    rw [hroom] at herror
    cases (Prod.mk.inj herror).1
  · rw [hout, Option.map_some] at hroom
    have hle : bs.length ≤ room := hfits room hout
    rw [hroom] at herror
    dsimp only at herror
    split at herror
    · cases (Prod.mk.inj herror).1
    · next hmore =>
        obtain ⟨he, rfl⟩ := Prod.mk.inj herror
        have hlength : ¬ (bs ++ more).length ≤ room := by
          rw [List.length_append]
          omega
        refine ⟨(Except.error.inj he).symm.trans h.whenFull, by simpa [HasRoom, hout] using hlength, ?_⟩
        rw [contents_cons, htaken, List.append_assoc]
        simp only [fitting, hout, List.take_append, List.take_of_length_le hle]

theorem Took.flush (h : out.Took bs w) : w.flush = out.flush := by
  rw [Sink.flush, Sink.flush, h.flushError]

end Sink

/-! ### What has been written to a block writer -/

namespace BlockWriter

variable {out : Sink} {w w' : BlockWriter} {bs more : Bytes} {e : IoError}

/-- These bytes have been written: the sink has taken the first of them, and the others are held. -/
structure Given (out : Sink) (bs : Bytes) (w : BlockWriter) : Prop where
  size : w.heldSize = w.held.reverse.flatten.length
  split : ∃ sent, out.Took sent w.sink ∧ sent ++ w.held.reverse.flatten = bs

theorem given_ofSink (out : Sink) : Given out [] (ofSink out) :=
  ⟨rfl, [], out.took_nil, rfl⟩

/-- All of it has been sent on. -/
theorem given_of_took (h : out.Took bs w.sink) (hheld : w.held.reverse.flatten = [])
    (hsize : w.heldSize = 0) : Given out bs w :=
  ⟨by rw [hsize, hheld]; rfl, bs, h, by rw [hheld, List.append_nil]⟩

theorem Given.hold (h : Given out bs w) (more : Bytes) : Given out (bs ++ more) (w.hold more) := by
  obtain ⟨sent, htook, hbs⟩ := h.split
  exact ⟨by simp [BlockWriter.hold, h.size], sent, htook, by simp [BlockWriter.hold, ← hbs]⟩

theorem Given.release_ok (h : Given out bs w) (hok : w.release = (.ok (), w')) :
    out.Took bs w'.sink ∧ w'.held.reverse.flatten = [] ∧ w'.heldSize = 0 := by
  obtain ⟨sent, htook, rfl⟩ := h.split
  unfold release at hok
  split at hok
  · next hsize =>
      obtain rfl := (Prod.mk.inj hok).2
      have hheld : w.held.reverse.flatten = [] := List.length_eq_zero_iff.mp (h.size ▸ hsize)
      rw [hheld, List.append_nil]
      exact ⟨htook, rfl, hsize⟩
  · rcases hwrite : w.sink.write w.held.reverse.flatten with ⟨result, sink⟩
    rw [hwrite] at hok
    obtain ⟨rfl, rfl⟩ := Prod.mk.inj hok
    exact ⟨htook.write_ok hwrite, rfl, rfl⟩

theorem Given.release_error (h : Given out bs w) (herror : w.release = (.error e, w')) :
    e = out.whenFull ∧ ¬ out.HasRoom bs.length
      ∧ w'.sink.contents = out.contents ++ out.fitting bs ∧ w'.heldSize = 0 := by
  obtain ⟨sent, htook, rfl⟩ := h.split
  unfold release at herror
  split at herror
  · cases (Prod.mk.inj herror).1
  · rcases hwrite : w.sink.write w.held.reverse.flatten with ⟨result, sink⟩
    rw [hwrite] at herror
    obtain ⟨rfl, rfl⟩ := Prod.mk.inj herror
    obtain ⟨hfull, hroom, hcontents⟩ := htook.write_error hwrite
    exact ⟨hfull, hroom, hcontents, rfl⟩

/-- Nothing is lost when the writer is given up. -/
theorem Given.arrived (h : Given out bs w) :
    w.closed.contents = out.contents ++ out.fitting bs := by
  rw [closed]
  rcases hrelease : w.release with ⟨e | _, w'⟩
  · obtain ⟨-, -, hcontents, -⟩ := h.release_error hrelease
    exact hcontents
  · obtain ⟨htook, -⟩ := h.release_ok hrelease
    exact htook.arrived

theorem closed_of_heldSize (h : w.heldSize = 0) : w.closed = w.sink := by
  rw [closed, release, if_pos h]

theorem Given.write_ok (h : Given out bs w) (hok : w.write more = (.ok (), w')) :
    Given out (bs ++ more) w' := by
  unfold BlockWriter.write at hok
  split at hok
  · obtain rfl := (Prod.mk.inj hok).2
    exact h.hold more
  · rcases hrelease : w.release with ⟨e | _, w₁⟩
    · rw [hrelease] at hok
      cases (Prod.mk.inj hok).1
    · obtain ⟨htook, hheld, hsize⟩ := h.release_ok hrelease
      simp only [hrelease] at hok
      split at hok
      · obtain rfl := (Prod.mk.inj hok).2
        exact (given_of_took htook hheld hsize).hold more
      · rcases hwrite : w₁.sink.write more with ⟨result, sink⟩
        rw [hwrite] at hok
        obtain ⟨rfl, rfl⟩ := Prod.mk.inj hok
        exact given_of_took (htook.write_ok hwrite) hheld hsize

theorem Given.write_error (h : Given out bs w) (herror : w.write more = (.error e, w')) :
    e = out.whenFull ∧ ¬ out.HasRoom (bs ++ more).length
      ∧ w'.closed.contents = out.contents ++ out.fitting (bs ++ more) := by
  unfold BlockWriter.write at herror
  split at herror
  · cases (Prod.mk.inj herror).1
  · rcases hrelease : w.release with ⟨e' | _, w₁⟩
    · rw [hrelease] at herror
      obtain ⟨he, rfl⟩ := Prod.mk.inj herror
      obtain rfl := Except.error.inj he
      obtain ⟨hfull, hroom, hcontents, hsize⟩ := h.release_error hrelease
      rw [closed_of_heldSize hsize, hcontents, Sink.fitting_append_of_not_hasRoom hroom]
      exact ⟨hfull, Sink.not_hasRoom_append hroom more, rfl⟩
    · obtain ⟨htook, hheld, hsize⟩ := h.release_ok hrelease
      simp only [hrelease] at herror
      split at herror
      · cases (Prod.mk.inj herror).1
      · rcases hwrite : w₁.sink.write more with ⟨result, sink⟩
        rw [hwrite] at herror
        obtain ⟨rfl, rfl⟩ := Prod.mk.inj herror
        have hclosed : closed { w₁ with sink } = sink := closed_of_heldSize hsize
        rw [hclosed]
        exact htook.write_error hwrite

end BlockWriter

/-! ### Files that are open for writing -/

namespace Sink

/-- What stands behind a file that is open for writing: the full device, or an ordinary file. -/
structure Behind (full : Bool) (s : Sink) : Prop where
  flushError : s.flushError = none
  room : s.room = if full then some 0 else none
  contents_of_full : full = true → s.contents = []

variable {full : Bool} {s s' : Sink} {bs : Bytes}

theorem behind_unbounded : Sink.unbounded.Behind false :=
  ⟨rfl, rfl, by simp⟩

theorem behind_full : Sink.full.Behind true :=
  ⟨rfl, rfl, fun _ => rfl⟩

theorem Behind.emptied (h : s.Behind full) : s.emptied.Behind full :=
  ⟨h.flushError, h.room, fun _ => rfl⟩

theorem Behind.hasRoom (h : s.Behind false) (size : Nat) : s.HasRoom size := by
  simp [HasRoom, h.room]

theorem Behind.took {out : Sink} (h : out.Behind full) (hnew : out.contents = [])
    (htook : out.Took bs s) : s.Behind full where
  flushError := htook.flushError.trans h.flushError
  room := by
    rw [htook.room, h.room]
    cases full <;> simp
  contents_of_full hfull := by
    have hfits := htook.fits 0 (by rw [h.room, if_pos hfull]; rfl)
    rw [htook.contents, hnew, List.eq_nil_of_length_eq_zero (Nat.le_zero.mp hfits)]
    rfl

theorem Behind.took_emptied (h : s.Behind full) : s.emptied.Took s.contents s where
  fits := by
    intro room hroom
    have hfull := h.contents_of_full
    rw [Sink.emptied, h.room] at hroom
    cases full <;> simp_all
  contents := rfl
  room := by
    rw [Sink.emptied, h.room]
    cases full <;> simp
  whenFull := rfl
  flushError := rfl

theorem Behind.flush (h : s.Behind full) : s.flush = .ok () := by
  rw [Sink.flush, h.flushError]

end Sink

namespace BlockWriter

/-- So far, these bytes were written to the writer, and none was lost. -/
structure Holds (full : Bool) (bs : Bytes) (w : BlockWriter) : Prop where
  sink : w.sink.Behind full
  size : w.heldSize = w.held.reverse.flatten.length
  bytes : w.sink.contents ++ w.held.reverse.flatten = bs

variable {full : Bool} {w w' : BlockWriter} {bs more : Bytes} {s : Sink}

/-- It is what was written to the writer since the file was new. -/
theorem holds_iff_given :
    w.Holds full bs ↔ ∃ out : Sink, out.Behind full ∧ out.contents = [] ∧ Given out bs w := by
  constructor
  · intro h
    exact ⟨w.sink.emptied, h.sink.emptied, rfl, h.size, _, h.sink.took_emptied, h.bytes⟩
  · rintro ⟨out, hout, hnew, hsize, sent, htook, hbs⟩
    refine ⟨hout.took hnew htook, hsize, ?_⟩
    rw [htook.contents, hnew, List.nil_append, hbs]

theorem holds_ofSink (h : s.Behind full) (hcontents : s.contents = []) :
    (ofSink s).Holds full [] :=
  holds_iff_given.mpr ⟨s, h, hcontents, given_ofSink s⟩

theorem Holds.release (h : w.Holds full bs) (hok : w.release = (.ok (), w')) :
    w'.Holds full bs ∧ w'.held.reverse.flatten = [] := by
  obtain ⟨out, hout, hnew, hgiven⟩ := holds_iff_given.mp h
  obtain ⟨htook, hheld, hsize⟩ := hgiven.release_ok hok
  exact ⟨holds_iff_given.mpr ⟨out, hout, hnew, given_of_took htook hheld hsize⟩, hheld⟩

theorem Holds.release_ordinary (h : w.Holds false bs) : ∃ w', w.release = (.ok (), w') := by
  obtain ⟨out, hout, -, hgiven⟩ := holds_iff_given.mp h
  rcases hrelease : w.release with ⟨e | _, w'⟩
  · exact absurd (hout.hasRoom _) (hgiven.release_error hrelease).2.1
  · exact ⟨w', rfl⟩

theorem Holds.write (h : w.Holds full bs) (hok : w.write more = (.ok (), w')) :
    w'.Holds full (bs ++ more) := by
  obtain ⟨out, hout, hnew, hgiven⟩ := holds_iff_given.mp h
  exact holds_iff_given.mpr ⟨out, hout, hnew, hgiven.write_ok hok⟩

theorem Holds.write_ordinary (h : w.Holds false bs) (more : Bytes) :
    ∃ w', w.write more = (.ok (), w') := by
  obtain ⟨out, hout, -, hgiven⟩ := holds_iff_given.mp h
  rcases hwrite : w.write more with ⟨e | _, w'⟩
  · exact absurd (hout.hasRoom _) (hgiven.write_error hwrite).2.1
  · exact ⟨w', rfl⟩

theorem Holds.writeLine {line : Bytes} (h : w.Holds full bs)
    (hok : w.writeLine line = (.ok (), w')) : w'.Holds full (bs ++ line.terminate) := by
  unfold BlockWriter.writeLine at hok
  split at hok
  · next hline =>
      rw [Bytes.terminate, ← List.append_assoc]
      exact (h.write hline).write hok
  · next hfail => exact absurd hok (hfail () w')

theorem Holds.writeLine_ordinary (h : w.Holds false bs) (line : Bytes) :
    ∃ w', w.writeLine line = (.ok (), w') := by
  obtain ⟨w₁, hline⟩ := h.write_ordinary line
  obtain ⟨w', hnewline⟩ := (h.write hline).write_ordinary [Bytes.newline]
  exact ⟨w', by rw [BlockWriter.writeLine, hline]; exact hnewline⟩

theorem Holds.flush (h : w.Holds full bs) (hok : w.flush = (.ok (), w')) :
    w'.Holds full bs ∧ w'.sink.contents = bs := by
  unfold BlockWriter.flush at hok
  split at hok
  · next hrelease =>
      obtain rfl := (Prod.mk.inj hok).2
      obtain ⟨h', hempty⟩ := h.release hrelease
      exact ⟨h', by simpa [hempty] using h'.bytes⟩
  · next hfail => exact absurd hok (hfail () w')

theorem Holds.flush_ordinary (h : w.Holds false bs) : ∃ w', w.flush = (.ok (), w') := by
  obtain ⟨w', hrelease⟩ := h.release_ordinary
  obtain ⟨h', -⟩ := h.release hrelease
  exact ⟨w', by rw [BlockWriter.flush, hrelease]; simp [h'.sink.flush]⟩

theorem Holds.release_of_contents (h : w.Holds full bs) (hcontents : w.sink.contents = bs) :
    w.release = (.ok (), w) := by
  have hbytes := h.bytes
  rw [hcontents, List.append_right_eq_self] at hbytes
  rw [BlockWriter.release, if_pos (by rw [h.size, hbytes]; rfl)]

theorem Holds.closed_of_contents (h : w.Holds full bs) (hcontents : w.sink.contents = bs) :
    w.closed.contents = bs := by
  rw [closed, h.release_of_contents hcontents, hcontents]

/-- A writer that is given up in front of an ordinary file still lets go of what it holds. -/
theorem Holds.closed_ordinary (h : w.Holds false bs) : w.closed.contents = bs := by
  obtain ⟨out, hout, hnew, hgiven⟩ := holds_iff_given.mp h
  rw [hgiven.arrived, hnew, (hout.hasRoom _).fitting, List.nil_append]

end BlockWriter

end MapReduce
