import MapReduce.Proofs.Legible
import MapReduce.Proofs.VertexDegree

/-!
# Records that come through intact

The records of the two workloads are words and counts. The encoder takes them all, their lines are text,
and no line ends in a carriage return, so the line reader of a reduce task gives back what the map task
was to write. A map task of these workloads therefore never fails for a record.
-/

namespace MapReduce

open scoped List
open Workload (encodeCount)

namespace Record

variable {r : Record} {records : List Record}

/-- A record that is written down and read back as it was. -/
structure Intact (r : Record) : Prop where
  writable : r.Writable
  isText : Utf8.IsText r.line
  withoutReturn : r.withoutReturn = r

theorem readLines_of_intact (h : ∀ r ∈ records, r.Intact) :
    ReduceTask.readLines (fileOf records) = .ok (records.map line) := by
  obtain ⟨text, htext⟩ := Utf8.isText_iff_decode.mp
    (isText_fileOf (fun r hr => (h r hr).writable) fun r hr => (h r hr).isText)
  rw [ReduceTask.readLines_fileOf (fun r hr => (h r hr).writable) htext]
  rw [List.map_congr_left fun r hr => (h r hr).withoutReturn, List.map_id']

theorem split_of_intact (h : ∀ r ∈ records, r.Intact) :
    (records.map line).map split = records.map .ok := by
  rw [List.map_map]
  exact List.map_congr_left fun r hr => split_line (h r hr).writable.toLegible

/-- The line of one record, by itself. -/
theorem Intact.readLines (h : r.Intact) : ReduceTask.readLines r.line.terminate = .ok [r.line] := by
  have hread : ReduceTask.readLines (fileOf [r]) = .ok ([r].map line) :=
    readLines_of_intact (by simpa using h)
  simpa [fileOf] using hread

theorem Intact.isText_terminate (h : r.Intact) : Utf8.IsText r.line.terminate := by
  rw [Bytes.terminate, Utf8.isText_append_newline h.writable.newline_notMem_line]
  exact ⟨h.isText, Utf8.isText_encode []⟩

end Record

theorem WordCount.Counts.intact {ws : List Bytes} {records : List Record}
    (h : WordCount.Counts ws records) : ∀ r ∈ records, r.Intact := by
  intro r hr
  obtain ⟨c, hvalue⟩ := h.exists_value hr
  exact ⟨h.writable r hr, h.isText_line hr, Record.withoutReturn_of_encodeCount hvalue⟩

namespace MapTask

variable {map : MapFunction} {aux : Bytes} {input output : Path} {t t' : FileTree} {n : Nat}

/-- A map function all of whose records come through intact. -/
def EmitsIntact (map : MapFunction) : Prop :=
  ∀ input aux items, map input aux = .ok items →
    ∃ records : List Record, items = records.map .ok ∧ ∀ r ∈ records, r.Intact

/-! ### Records are no reason to fail -/

theorem Emission.writeChunk_eq_error {e e' : Emission} {cause : TaskError}
    (h : e.writeChunk = (.error cause, e')) : ∃ reason, cause = .write reason := by
  unfold writeChunk at h
  split at h
  · cases h
  · next reason writer hwrite => exact ⟨reason, (Except.error.inj (Prod.mk.inj h).1).symm⟩

theorem Emission.addAll_ne_unwritable {records : List Record} (h : ∀ r ∈ records, r.Writable)
    (e : Emission) (cause : RecordError) :
    (e.addAll (records.map .ok)).1 ≠ .error (.unwritable cause) := by
  induction records generalizing e with
  | nil => simp [addAll]
  | cons record records ih =>
      rw [List.forall_mem_cons] at h
      simp only [List.map_cons, addAll, Record.encode_eq_ok_iff.mpr ⟨h.1, rfl⟩]
      split
      · exact ih h.2 _
      · rcases hchunk : (e.add record.line.terminate).writeChunk with ⟨cause' | _, e'⟩
        · obtain ⟨reason, rfl⟩ := writeChunk_eq_error hchunk
          simp
        · exact ih h.2 e'

theorem Emission.run_ne_unwritable {records : List Record} (h : ∀ r ∈ records, r.Writable)
    (e : Emission) (output : Path) (cause : RecordError) :
    (e.run output (records.map .ok)).1 ≠ .error (.unwritable cause) := by
  have hadd := e.addAll_ne_unwritable h cause
  unfold Emission.run
  rcases hadded : e.addAll (records.map .ok) with ⟨cause' | _, e₁⟩
  · rw [hadded] at hadd
    simpa using hadd
  · dsimp only
    rcases hchunk : e₁.writeChunk with ⟨cause' | _, e₂⟩
    · obtain ⟨reason, rfl⟩ := writeChunk_eq_error hchunk
      simp
    · dsimp only
      rcases e₂.writer.flush with ⟨_ | _, _⟩ <;> simp

theorem EmitsIntact.run_ne_unwritable (h : EmitsIntact map) (aux : Bytes) (input output : Path)
    (t : FileTree) (cause : RecordError) :
    (run map aux input output t).1 ≠ .error (.unwritable cause) := by
  unfold run
  split
  · simp
  · next contents _ =>
      split
      · simp
      · next place t₁ _ =>
          split
          · simp
          · next items hmap =>
              obtain ⟨records, rfl, hrecords⟩ := h _ _ _ hmap
              exact Emission.run_ne_unwritable (fun r hr => (hrecords r hr).writable) _ output cause

/-! ### From the map task to the reduce task -/

/-- The lines of the output are read as the records that the map function has emitted. -/
theorem EmitsIntact.read_output (h : EmitsIntact map) (hok : run map aux input output t = (.ok n, t')) :
    ∃ (contents : Bytes) (records : List Record) (bytes : Bytes) (lines : List Bytes),
      t.openFile input >>= t.read = .ok contents
      ∧ map ⟨Bytes.ofString input.show, contents⟩ aux = .ok (records.map .ok)
      ∧ t'.openFile output >>= t'.read = .ok bytes ∧ ReduceTask.readLines bytes = .ok lines
      ∧ lines.map Record.split = records.map .ok := by
  obtain ⟨contents, place, full, records, hread, hresolve, hmap, -, hholds, hrew⟩ := run_eq_ok hok
  obtain ⟨records', hitems, hintact⟩ := h _ _ _ hmap
  obtain rfl : records = records' :=
    List.map_injective_iff.mpr (fun _ _ => Except.ok.inj) hitems
  have hstores := hholds.stores ((hrew.resolve output place).mpr hresolve) (not_endsInSlash_of_run hok)
  exact ⟨contents, records, Record.fileOf records, records.map Record.line, hread, hmap,
    hstores.openFile_bind_read, Record.readLines_of_intact hintact, Record.split_of_intact hintact⟩

/-- Nothing happens to the records of a map function on their way to a reducer. -/
structure Transports (map : MapFunction) : Prop where
  emits (input : Record) (aux : Bytes) (items : List (Except WorkloadError Record))
    (h : map input aux = .ok items) :
    ∃ records : List Record, items = records.map .ok
      ∧ ∀ r ∈ records, r.encode = .ok r.line.terminate ∧ Utf8.IsText r.line.terminate
        ∧ ReduceTask.readLines r.line.terminate = .ok [r.line] ∧ Record.split r.line = .ok r
  writable (aux : Bytes) (input output : Path) (t : FileTree) (cause : RecordError) :
    (run map aux input output t).1 ≠ .error (.unwritable cause)
  arrive (aux : Bytes) (input output : Path) (t t' : FileTree) (n : Nat)
    (h : run map aux input output t = (.ok n, t')) :
    ∃ (contents : Bytes) (records : List Record) (bytes : Bytes) (lines : List Bytes),
      t.openFile input >>= t.read = .ok contents
      ∧ map ⟨Bytes.ofString input.show, contents⟩ aux = .ok (records.map .ok)
      ∧ t'.openFile output >>= t'.read = .ok bytes ∧ ReduceTask.readLines bytes = .ok lines
      ∧ lines.map Record.split = records.map .ok

theorem EmitsIntact.transports (h : EmitsIntact map) : Transports map where
  emits input aux items hmap := by
    obtain ⟨records, hitems, hintact⟩ := h input aux items hmap
    refine ⟨records, hitems, fun r hr => ?_⟩
    have hr := hintact r hr
    exact ⟨Record.encode_eq_ok_iff.mpr ⟨hr.writable, rfl⟩, hr.isText_terminate, hr.readLines,
      Record.split_line hr.writable.toLegible⟩
  writable := h.run_ne_unwritable
  arrive _ _ _ _ _ _ := h.read_output

end MapTask

/-! ### The two workloads -/

theorem VertexDegree.emitsIntact_map : MapTask.EmitsIntact VertexDegree.map := by
  rintro ⟨key, contents⟩ aux items hmap
  by_cases htext : Utf8.IsText contents
  · obtain ⟨text, rfl⟩ := htext
    by_cases hnone : none ∈ readings text
    · obtain ⟨e, he⟩ := map_of_mem key aux hnone
      cases hmap.symm.trans he
    · obtain rfl := Except.ok.inj (hmap.symm.trans (map_of_notMem key aux hnone))
      exact ⟨_, rfl, (counts_endpoints _).intact⟩
  · obtain ⟨e, he⟩ := map_of_not_isText key aux htext
    cases hmap.symm.trans he

namespace WordCount

theorem emitsIntact_map : MapTask.EmitsIntact WordCount.map := by
  rintro ⟨key, contents⟩ aux items hmap
  by_cases htext : Utf8.IsText contents
  · obtain ⟨text, rfl⟩ := htext
    obtain rfl := Except.ok.inj (hmap.symm.trans (map_of_text key aux text))
    exact ⟨_, rfl, (counts_recordsOf fun _ => isToken_of_mem_tokens).intact⟩
  · obtain ⟨e, he⟩ := map_of_not_isText key aux htext
    cases hmap.symm.trans he

/-- The words of `ws` as records: each distinct word once and in order, with the number of its
occurrences. -/
structure Tabulates (ws : List Bytes) (records : List Record) : Prop where
  ascending : Bytes.Ascending (records.map Record.key)
  mem_keys (w : Bytes) : w ∈ records.map Record.key ↔ w ∈ ws
  values : records.map Record.value = records.map fun r => encodeCount (ws.count r.key)
  total : (records.map fun r => ws.count r.key).sum = ws.length

theorem keys_recordsOf (ws : List Bytes) :
    (recordsOf ws).map Record.key = (ws.mergeSort Bytes.le).dedup := by
  rw [recordsOf_eq, List.map_map]
  exact List.map_id _

theorem sum_count_recordsOf (ws : List Bytes) :
    ((recordsOf ws).map fun r => ws.count r.key).sum = ws.length := by
  have hperm := List.mergeSort_perm ws Bytes.le
  have hsum := List.sum_map_count_dedup_eq_length (ws.mergeSort Bytes.le)
  rw [hperm.length_eq] at hsum
  rw [← hsum, ← keys_recordsOf, List.map_map]
  congr 1
  refine List.map_congr_left fun r _ => ?_
  -- the two counts differ in how they compare words only
  rw [Function.comp_apply, ← hperm.count_eq]
  congr!

theorem tabulates_recordsOf (ws : List Bytes) : Tabulates ws (recordsOf ws) where
  ascending := by
    rw [keys_recordsOf]
    have hsorted := (Bytes.pairwise_mergeSort ws).sublist (List.dedup_sublist _)
    exact hsorted.and (List.nodup_dedup _)
  mem_keys w := by
    rw [keys_recordsOf, List.mem_dedup, (List.mergeSort_perm ws Bytes.le).mem_iff]
  values := by
    rw [recordsOf_eq, List.map_map, List.map_map]
    rfl
  total := sum_count_recordsOf ws

end WordCount

/-- **Records on their way.** Whatever the input, the records of both workloads come through intact.
Counting words gives the table of the words of the input, unless the input is not text; the edges of a
graph give a record for each of their ends. -/
theorem Workload.transports_maps :
    MapTask.Transports WordCount.map ∧ MapTask.Transports VertexDegree.map
      ∧ (∀ key aux contents : Bytes,
        (∃ text records, contents = Utf8.encode text
          ∧ WordCount.map ⟨key, contents⟩ aux = .ok (records.map .ok)
          ∧ WordCount.Tabulates (WordCount.tokens text) records)
        ∨ (¬ Utf8.IsText contents ∧ ∃ e, WordCount.map ⟨key, contents⟩ aux = .error e))
      ∧ ∀ (key aux : Bytes) (text : List Char), VertexDegree.IsGraph text →
        VertexDegree.map ⟨key, Utf8.encode text⟩ aux
          = .ok ((VertexDegree.endpoints (VertexDegree.edges text)).map .ok) := by
  refine ⟨WordCount.emitsIntact_map.transports, VertexDegree.emitsIntact_map.transports, ?_, ?_⟩
  · intro key aux contents
    by_cases htext : Utf8.IsText contents
    · obtain ⟨text, rfl⟩ := htext
      exact .inl ⟨text, WordCount.recordsOf (WordCount.tokens text), rfl,
        WordCount.map_of_text key aux text, WordCount.tabulates_recordsOf _⟩
    · exact .inr ⟨htext, WordCount.map_of_not_isText key aux htext⟩
  · intro key aux text hgraph
    rw [VertexDegree.edges_eq]
    exact VertexDegree.map_of_notMem key aux ((VertexDegree.isGraph_iff text).mp hgraph)

end MapReduce
