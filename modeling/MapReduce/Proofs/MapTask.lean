import MapReduce.Proofs.OutputFiles
import MapReduce.Proofs.Record
import MapReduce.TaskRun.Map

/-!
# What a map task writes

A map task that succeeds leaves in its output file the lines of exactly the records that the map
function emitted, in order, and changes nothing else.
-/

namespace MapReduce

open FileTree (Rewritten)

namespace MapTask

namespace Emission

/-- The records encoded so far come to these bytes; a first part is with the writer. -/
structure Holds (full : Bool) (bs : Bytes) (e : Emission) : Prop where
  parts : ∃ written, e.writer.Holds full written ∧ written ++ e.pending.reverse.flatten = bs

variable {full : Bool} {bs : Bytes} {e e' : Emission}

theorem holds_begin {writer : BlockWriter} (h : writer.Holds full bs) :
    (begin writer).Holds full bs :=
  ⟨bs, h, by simp [begin]⟩

theorem Holds.add (h : e.Holds full bs) (line : Bytes) : (e.add line).Holds full (bs ++ line) := by
  obtain ⟨written, hwriter, rfl⟩ := h.parts
  exact ⟨written, hwriter, by simp [Emission.add]⟩

theorem Holds.writeChunk (h : e.Holds full bs) (hok : e.writeChunk = (.ok (), e')) :
    e'.Holds full bs ∧ e'.writer.Holds full bs := by
  obtain ⟨written, hwriter, rfl⟩ := h.parts
  rcases hwrite : e.writer.write e.pending.reverse.flatten with ⟨result, writer⟩
  rw [Emission.writeChunk, hwrite] at hok
  cases result with
  | error cause => simp at hok
  | ok u =>
      obtain rfl := (Prod.mk.inj hok).2
      have hwritten := hwriter.write hwrite
      exact ⟨⟨_, hwritten, by simp⟩, hwritten⟩

theorem Holds.writeChunk_ordinary (h : e.Holds false bs) : ∃ e', e.writeChunk = (.ok (), e') := by
  obtain ⟨written, hwriter, rfl⟩ := h.parts
  obtain ⟨writer, hwrite⟩ := hwriter.write_ordinary e.pending.reverse.flatten
  exact ⟨_, by rw [Emission.writeChunk, hwrite]⟩

/-- Emission goes well only for records that can be written down, and it writes their lines. -/
theorem Holds.addAll {items : List (Except WorkloadError Record)} (h : e.Holds full bs)
    (hok : e.addAll items = (.ok (), e')) :
    ∃ records, items = records.map .ok ∧ (∀ r ∈ records, r.Writable)
      ∧ e'.Holds full (bs ++ Record.fileOf records) := by
  induction items generalizing e bs with
  | nil =>
      obtain rfl := (Prod.mk.inj hok).2
      exact ⟨[], rfl, by simp, by simpa [Record.fileOf] using h⟩
  | cons item items ih =>
      cases item with
      | error cause => simp [Emission.addAll] at hok
      | ok record =>
          cases hencode : record.encode with
          | error cause => simp [Emission.addAll, hencode] at hok
          | ok line =>
              obtain ⟨hwritable, rfl⟩ := Record.encode_eq_ok_iff.mp hencode
              have hadd := h.add record.line.terminate
              simp only [Emission.addAll, hencode] at hok
              obtain ⟨e₁, h₁, hrest⟩ : ∃ e₁ : Emission,
                  e₁.Holds full (bs ++ record.line.terminate) ∧ e₁.addAll items = (.ok (), e') := by
                split at hok
                · exact ⟨_, hadd, hok⟩
                · split at hok
                  · next e₁ hchunk => exact ⟨e₁, (hadd.writeChunk hchunk).1, hok⟩
                  · next hfail => exact absurd hok (hfail _ _)
              obtain ⟨records, rfl, hrecords, h'⟩ := ih h₁ hrest
              refine ⟨record :: records, rfl, by simpa using ⟨hwritable, hrecords⟩, ?_⟩
              simpa [Record.fileOf] using h'

theorem Holds.addAll_ordinary {records : List Record} (h : e.Holds false bs)
    (hrecords : ∀ r ∈ records, r.Writable) : ∃ e', e.addAll (records.map .ok) = (.ok (), e') := by
  induction records generalizing e bs with
  | nil => exact ⟨e, rfl⟩
  | cons record records ih =>
      have hencode := Record.encode_eq_ok_iff.mpr ⟨hrecords record (by simp), rfl⟩
      have hadd := h.add record.line.terminate
      have hrest : ∀ r ∈ records, r.Writable := fun r hr => hrecords r (by simp [hr])
      simp only [List.map_cons, Emission.addAll, hencode]
      split
      · exact ih hadd hrest
      · obtain ⟨e₁, hchunk⟩ := hadd.writeChunk_ordinary
        rw [hchunk]
        exact ih (hadd.writeChunk hchunk).1 hrest

theorem Holds.run {items : List (Except WorkloadError Record)} {output : Path} {n : Nat}
    {writer : BlockWriter} (h : e.Holds full bs) (hok : e.run output items = (.ok n, writer)) :
    ∃ records, items = records.map .ok ∧ (∀ r ∈ records, r.Writable)
      ∧ writer.Holds full (bs ++ Record.fileOf records)
      ∧ writer.sink.contents = bs ++ Record.fileOf records := by
  unfold Emission.run at hok
  split at hok
  · simp at hok
  · next e₁ hadd =>
      obtain ⟨records, hitems, hrecords, h₁⟩ := h.addAll hadd
      split at hok
      · simp at hok
      · next e₂ hchunk =>
          obtain ⟨-, hwriter⟩ := h₁.writeChunk hchunk
          split at hok
          · next hflush =>
              obtain rfl := (Prod.mk.inj hok).2
              obtain ⟨hwriter', hcontents⟩ := hwriter.flush hflush
              exact ⟨records, hitems, hrecords, hwriter', hcontents⟩
          · simp at hok

theorem Holds.run_ordinary {records : List Record} (h : e.Holds false bs) (output : Path)
    (hrecords : ∀ r ∈ records, r.Writable) :
    ∃ n writer, e.run output (records.map .ok) = (.ok n, writer) := by
  obtain ⟨e₁, hadd⟩ := h.addAll_ordinary hrecords
  obtain ⟨records', hitems, -, h₁⟩ := h.addAll hadd
  obtain ⟨e₂, hchunk⟩ := h₁.writeChunk_ordinary
  obtain ⟨writer, hflush⟩ := (h₁.writeChunk hchunk).2.flush_ordinary
  exact ⟨e₂.count, writer, by simp only [Emission.run, hadd, hchunk, hflush]⟩

end Emission

variable {map : MapFunction} {aux : Bytes} {input output : Path} {t t' : FileTree} {n : Nat}

theorem run_eq_ok (h : run map aux input output t = (.ok n, t')) :
    ∃ contents place full records, t.openFile input >>= t.read = .ok contents
      ∧ t.resolve output = .ok place
      ∧ map ⟨Bytes.ofString input.show, contents⟩ aux = .ok (records.map .ok)
      ∧ (∀ r ∈ records, r.Writable)
      ∧ t'.Holds place full (Record.fileOf records) ∧ Rewritten [place] t t' := by
  unfold run at h
  split at h
  · simp at h
  · next contents hread =>
      split at h
      · simp at h
      · next place t₁ hcreate =>
          obtain ⟨hresolve, hrew, full, hplace, -⟩ := FileTree.create_eq_ok hcreate
          split at h
          · simp at h
          · next items hmap =>
              rcases hrun : (Emission.begin (.ofSink (t₁.sinkAt place))).run output items
                with ⟨result, writer⟩
              simp only [hrun, Prod.mk.injEq] at h
              obtain ⟨rfl, rfl⟩ := h
              obtain ⟨records, rfl, hrecords, hwriter, hcontents⟩ :=
                (Emission.holds_begin hplace.holds_ofSink).run hrun
              exact ⟨contents, place, full, records, hread, hresolve, hmap, hrecords,
                hplace.writeAt_closed hwriter hcontents,
                hrew.trans (FileTree.rewritten_writeAt _ _ _ _)⟩

/-- When the files are in order, a map task fails only if the map function does. -/
theorem run_of_map_eq_ok {contents : Bytes} {place : Location} {records : List Record}
    (hread : t.openFile input >>= t.read = .ok contents) (hplace : t.Creatable output place)
    (hordinary : t.get? place ≠ some .fullDevice)
    (hmap : map ⟨Bytes.ofString input.show, contents⟩ aux = .ok (records.map .ok))
    (hrecords : ∀ r ∈ records, r.Writable) : ∃ n t', run map aux input output t = (.ok n, t') := by
  obtain ⟨place', t₁, hcreate, -, hwriter, -⟩ :=
    FileTree.Ordinary.create ⟨place, hplace, hordinary⟩
  obtain ⟨n, writer, hrun⟩ := (Emission.holds_begin hwriter).run_ordinary output hrecords
  exact ⟨n, t₁.writeAt place' 0 writer.closed.contents,
    by simp only [run, hread, hcreate, hmap, hrun]⟩

end MapTask

end MapReduce
