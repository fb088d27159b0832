import MapReduce.Proofs.MapTask

/-!
# Whole records only

The records of a map task are handed to its file a chunk at a time, a chunk being complete with the
record that brings it to its size. So a map task that fails leaves the records up to the last
complete chunk, and never a part of one; one that succeeds leaves them all, wherever the chunks
ended.
-/

namespace MapReduce.MapTask

variable {lines lines' done pending chunk chunk' : List Bytes} {i j : Nat}

/-! ### Where chunks end -/

/-- Lines that come to a chunk, but would not without the last of them. -/
structure IsChunk (chunk : List Bytes) : Prop where
  complete : chunkSize ≤ chunk.flatten.length
  incomplete : chunk.dropLast.flatten.length < chunkSize

/-- These lines are a number of chunks, so nothing is pending behind them. -/
def WritePoint (lines : List Bytes) : Prop :=
  ∃ chunks : List (List Bytes), chunks.flatten = lines ∧ ∀ c ∈ chunks, IsChunk c

/-- Behind the first `j` of these lines is the last point at which a chunk was complete. -/
structure LastWrite (lines : List Bytes) (j : Nat) : Prop where
  le : j ≤ lines.length
  point : WritePoint (lines.take j)
  last : ∀ i ≤ lines.length, WritePoint (lines.take i) → i ≤ j

theorem LastWrite.unique (h : LastWrite lines i) (h' : LastWrite lines j) : i = j :=
  Nat.le_antisymm (h'.last i h.le h.point) (h.last j h'.le h'.point)

theorem writePoint_nil : WritePoint [] :=
  ⟨[], rfl, by simp⟩

theorem WritePoint.append (h : WritePoint done) (hchunk : IsChunk chunk) :
    WritePoint (done ++ chunk) := by
  obtain ⟨chunks, rfl, hchunks⟩ := h
  refine ⟨chunks ++ [chunk], ?_, ?_⟩
  · rw [List.flatten_concat]
  · rw [List.forall_mem_append, List.forall_mem_singleton]
    exact ⟨hchunks, hchunk⟩

theorem length_flatten_le_of_prefix (h : lines <+: lines') :
    lines.flatten.length ≤ lines'.flatten.length := by
  obtain ⟨rest, rfl⟩ := h
  rw [List.flatten_append, List.length_append]
  exact Nat.le_add_right _ _

/-- A chunk that goes on would have ended before. -/
theorem IsChunk.eq_of_prefix (h : IsChunk chunk) (h' : IsChunk chunk') (hstarts : chunk <+: chunk') :
    chunk = chunk' := by
  obtain ⟨rest, rfl⟩ := hstarts
  by_cases hrest : rest = []
  · rw [hrest, List.append_nil]
  · have hlonger : chunk <+: (chunk ++ rest).dropLast := by
      rw [List.dropLast_append_of_ne_nil hrest]
      exact List.prefix_append _ _
    have hle := length_flatten_le_of_prefix hlonger
    exact absurd (Nat.le_trans h.complete hle) (Nat.not_le.mpr h'.incomplete)

theorem IsChunk.eq_of_prefixes (h : IsChunk chunk) (h' : IsChunk chunk') (hstarts : chunk <+: lines)
    (hstarts' : chunk' <+: lines) : chunk = chunk' := by
  rcases List.prefix_or_prefix_of_prefix hstarts hstarts' with hshort | hshort
  · exact h.eq_of_prefix h' hshort
  · exact (h'.eq_of_prefix h hshort).symm

/-- No chunk ends in lines that are pending. -/
theorem length_le_of_writePoint (hdone : WritePoint done)
    (hpending : pending.flatten.length < chunkSize) (h : WritePoint lines)
    (hstarts : lines <+: done ++ pending) : lines.length ≤ done.length := by
  obtain ⟨chunks, rfl, hchunks⟩ := h
  induction chunks generalizing done with
  | nil => exact Nat.zero_le _
  | cons chunk chunks ih =>
      obtain ⟨hchunk, hchunks⟩ := List.forall_mem_cons.mp hchunks
      rw [List.flatten_cons] at hstarts ⊢
      have hfirst : chunk <+: done ++ pending := (List.prefix_append _ _).trans hstarts
      obtain ⟨written, rfl, hwritten⟩ := hdone
      cases written with
      | nil =>
          have hle := length_flatten_le_of_prefix hfirst
          exact absurd (Nat.le_trans hchunk.complete hle) (Nat.not_le.mpr hpending)
      | cons chunk' written =>
          obtain ⟨hchunk', hlater⟩ := List.forall_mem_cons.mp hwritten
          rw [List.flatten_cons, List.append_assoc] at hfirst hstarts
          obtain rfl := hchunk.eq_of_prefixes hchunk' hfirst (List.prefix_append _ _)
          have hrest := ih ⟨written, rfl, hlater⟩ hchunks
            ((List.prefix_append_right_inj _).mp hstarts)
          rw [List.flatten_cons, List.length_append, List.length_append]
          exact Nat.add_le_add_left hrest _

theorem lastWrite_of_append (hdone : WritePoint done)
    (hpending : pending.flatten.length < chunkSize) : LastWrite (done ++ pending) done.length := by
  refine ⟨?_, ?_, ?_⟩
  · rw [List.length_append]
    exact Nat.le_add_right _ _
  · rwa [List.take_left]
  · intro i hi hpoint
    have hle := length_le_of_writePoint hdone hpending hpoint (List.take_prefix _ _)
    rwa [List.length_take, Nat.min_eq_left hi] at hle

/-! ### Emitting -/

/-- What an item is written as. -/
def lineOf : Except WorkloadError Record → Except TaskError Bytes
  | .error e => .error (.workload e)
  | .ok record => record.encode.mapError .unwritable

theorem exists_record_of_lineOf {item : Except WorkloadError Record} {line : Bytes}
    (h : lineOf item = .ok line) : ∃ record : Record, item = .ok record ∧ record.encode = .ok line := by
  cases item with
  | error e => simp [lineOf] at h
  | ok record =>
      cases hencode : record.encode with
      | error e => simp [lineOf, hencode, Except.mapError] at h
      | ok line' =>
          simp only [lineOf, hencode, Except.mapError] at h
          exact ⟨record, rfl, hencode.trans (congrArg _ (Except.ok.inj h))⟩

namespace Emission

variable {e : Emission} {item : Except WorkloadError Record}
  {items : List (Except WorkloadError Record)} {line : Bytes} {cause : TaskError}

/-- These lines have been emitted. Those up to the last write are with the writer, and the others
are pending. -/
structure Emitted (e : Emission) (lines : List Bytes) : Prop where
  split : ∃ done, e.writer.Holds false done.flatten ∧ WritePoint done
    ∧ done ++ e.pending.reverse = lines
  size : e.pendingSize = e.pending.reverse.flatten.length
  short : e.pendingSize < chunkSize
  count : e.count = lines.length

theorem emitted_begin {writer : BlockWriter} (h : writer.Holds false []) :
    (begin writer).Emitted [] :=
  ⟨⟨[], h, writePoint_nil, rfl⟩, rfl, Nat.two_pow_pos 16, rfl⟩

theorem Emitted.lastWrite (h : e.Emitted lines) :
    ∃ j, LastWrite lines j ∧ e.writer.Holds false (lines.take j).flatten := by
  obtain ⟨done, hwriter, hdone, rfl⟩ := h.split
  refine ⟨done.length, lastWrite_of_append hdone (h.size ▸ h.short), ?_⟩
  rwa [List.take_left]

theorem addAll_of_refused (hbad : lineOf item = .error cause)
    (rest : List (Except WorkloadError Record)) : e.addAll (item :: rest) = (.error cause, e) := by
  cases item with
  | error e => simpa [addAll, lineOf] using hbad
  | ok record =>
      cases hencode : record.encode with
      | error e => simpa [addAll, lineOf, hencode, Except.mapError] using hbad
      | ok line => simp [lineOf, hencode, Except.mapError] at hbad

theorem Emitted.add (h : e.Emitted lines) (hshort : (e.add line).pendingSize < chunkSize) :
    (e.add line).Emitted (lines ++ [line]) := by
  obtain ⟨done, hwriter, hdone, rfl⟩ := h.split
  refine ⟨⟨done, hwriter, hdone, ?_⟩, ?_, hshort, ?_⟩
  · rw [Emission.add, List.reverse_cons, List.append_assoc]
  · rw [Emission.add, h.size]
    simp
  · simp [Emission.add, h.count, Nat.add_assoc]

/-- A line that completes the chunk takes everything that was pending to the writer. -/
theorem Emitted.add_writeChunk (h : e.Emitted lines)
    (hfull : chunkSize ≤ (e.add line).pendingSize) :
    ∃ e', (e.add line).writeChunk = (.ok (), e') ∧ e'.Emitted (lines ++ [line]) := by
  obtain ⟨done, hwriter, hdone, rfl⟩ := h.split
  obtain ⟨writer, hwrite⟩ := hwriter.write_ordinary (line :: e.pending).reverse.flatten
  have hchunk : IsChunk (line :: e.pending).reverse := by
    refine ⟨?_, ?_⟩
    · rw [Emission.add, h.size] at hfull
      simpa using hfull
    · rw [List.reverse_cons, List.dropLast_concat, ← h.size]
      exact h.short
  refine ⟨⟨writer, [], 0, e.count + 1⟩, ?_, ⟨?_, ?_, ?_⟩, rfl, Nat.two_pow_pos 16, ?_⟩
  · rw [Emission.writeChunk, Emission.add, hwrite]
  · exact done ++ (line :: e.pending).reverse
  · rw [List.flatten_append]
    exact hwriter.write hwrite
  · refine ⟨hdone.append hchunk, ?_⟩
    rw [List.reverse_nil, List.append_nil, List.reverse_cons, List.append_assoc]
  · simp [h.count, Nat.add_assoc]

/-- **One record.** It joins those that are pending or completes the chunk. -/
theorem Emitted.addAll_cons (h : e.Emitted lines) (hline : lineOf item = .ok line)
    (rest : List (Except WorkloadError Record)) :
    ∃ e' : Emission, e.addAll (item :: rest) = e'.addAll rest ∧ e'.Emitted (lines ++ [line]) := by
  obtain ⟨record, rfl, hencode⟩ := exists_record_of_lineOf hline
  by_cases hshort : (e.add line).pendingSize < chunkSize
  · refine ⟨e.add line, ?_, h.add hshort⟩
    simp only [addAll, hencode, hshort, if_true]
  · obtain ⟨e', hwrite, h'⟩ := h.add_writeChunk (Nat.le_of_not_lt hshort)
    refine ⟨e', ?_, h'⟩
    simp only [addAll, hencode, hshort, if_false, hwrite]

/-- **A stretch of records.** -/
theorem Emitted.addAll_append (h : e.Emitted lines)
    (hitems : List.Forall₂ (fun item line => lineOf item = .ok line) items lines')
    (rest : List (Except WorkloadError Record)) :
    ∃ e' : Emission, e.addAll (items ++ rest) = e'.addAll rest ∧ e'.Emitted (lines ++ lines') := by
  induction hitems generalizing e lines with
  | nil => exact ⟨e, rfl, by rwa [List.append_nil]⟩
  | cons hline _ ih =>
      obtain ⟨e₁, hadd, h₁⟩ := h.addAll_cons hline _
      obtain ⟨e', hrest, h'⟩ := ih h₁
      refine ⟨e', ?_, ?_⟩
      · rw [List.cons_append, hadd, hrest]
      · rwa [List.append_assoc, List.singleton_append] at h'

/-- Items that can all be written down are written, and counted. -/
theorem run_of_lines {writer : BlockWriter} (hwriter : writer.Holds false [])
    (hitems : List.Forall₂ (fun item line => lineOf item = .ok line) items lines) (output : Path) :
    ∃ writer', (begin writer).run output items = (.ok lines.length, writer')
      ∧ writer'.Holds false lines.flatten := by
  obtain ⟨e₁, hadd, h₁⟩ := (emitted_begin hwriter).addAll_append hitems []
  rw [List.append_nil] at hadd
  rw [List.nil_append] at h₁
  obtain ⟨done, hdone, -, rfl⟩ := h₁.split
  obtain ⟨writer₂, hwrite⟩ := hdone.write_ordinary e₁.pending.reverse.flatten
  have hwritten := hdone.write hwrite
  rw [← List.flatten_append] at hwritten
  obtain ⟨writer₃, hflush⟩ := hwritten.flush_ordinary
  refine ⟨writer₃, ?_, (hwritten.flush hflush).1⟩
  simp only [run, hadd, addAll, writeChunk, hwrite, hflush, h₁.count]

/-- An item that cannot be written down ends the emission with the last write before it. -/
theorem run_of_refused {writer : BlockWriter} (hwriter : writer.Holds false [])
    (hitems : List.Forall₂ (fun item line => lineOf item = .ok line) items lines)
    (hbad : lineOf item = .error cause) (output : Path)
    (rest : List (Except WorkloadError Record)) :
    ∃ j writer', LastWrite lines j
      ∧ (begin writer).run output (items ++ item :: rest) = (.error cause, writer')
      ∧ writer'.Holds false (lines.take j).flatten := by
  obtain ⟨e₁, hadd, h₁⟩ := (emitted_begin hwriter).addAll_append hitems (item :: rest)
  rw [List.nil_append] at h₁
  obtain ⟨j, hlast, hwritten⟩ := h₁.lastWrite
  refine ⟨j, e₁.writer, hlast, ?_, hwritten⟩
  rw [run, hadd, addAll_of_refused hbad]

end Emission

/-! ### Whole runs -/

variable {map : MapFunction} {aux contents : Bytes} {input output : Path} {t : FileTree}
  {items before after : List (Except WorkloadError Record)} {bad : Except WorkloadError Record}
  {cause : TaskError}

theorem run_of_unread {e : IoError} (h : t.openFile input >>= t.read = .error e)
    (map : MapFunction) (aux : Bytes) (output : Path) :
    run map aux input output t = (.error (.file "read" input e), t) := by
  rw [run, h]

theorem run_of_map_eq_error {e : WorkloadError} (hread : t.openFile input >>= t.read = .ok contents)
    (hordinary : t.Ordinary output)
    (hmap : map ⟨Bytes.ofString input.show, contents⟩ aux = .error e) :
    ∃ place t', run map aux input output t = (.error (.workload e), t')
      ∧ t'.Stores output place [] := by
  obtain ⟨place, t', hcreate, hempty, -⟩ := hordinary.create
  refine ⟨place, t', ?_, hempty⟩
  simp only [run, hread, hcreate, hmap]

theorem run_of_lines (hread : t.openFile input >>= t.read = .ok contents)
    (hordinary : t.Ordinary output)
    (hmap : map ⟨Bytes.ofString input.show, contents⟩ aux = .ok items)
    (hitems : List.Forall₂ (fun item line => lineOf item = .ok line) items lines) :
    ∃ place t', run map aux input output t = (.ok lines.length, t')
      ∧ t'.Stores output place lines.flatten := by
  obtain ⟨place, t₁, hcreate, -, hwriter, hstored⟩ := hordinary.create
  obtain ⟨writer, hrun, hwritten⟩ := Emission.run_of_lines hwriter hitems output
  refine ⟨place, _, ?_, hstored writer _ hwritten⟩
  simp only [run, hread, hcreate, hmap, hrun]

theorem run_of_refused (hread : t.openFile input >>= t.read = .ok contents)
    (hordinary : t.Ordinary output)
    (hmap : map ⟨Bytes.ofString input.show, contents⟩ aux = .ok (before ++ bad :: after))
    (hbefore : List.Forall₂ (fun item line => lineOf item = .ok line) before lines)
    (hbad : lineOf bad = .error cause) :
    ∃ j place t', LastWrite lines j ∧ run map aux input output t = (.error cause, t')
      ∧ t'.Stores output place (lines.take j).flatten := by
  obtain ⟨place, t₁, hcreate, -, hwriter, hstored⟩ := hordinary.create
  obtain ⟨j, writer, hlast, hrun, hwritten⟩ :=
    Emission.run_of_refused hwriter hbefore hbad output after
  refine ⟨j, place, _, hlast, ?_, hstored writer _ hwritten⟩
  simp only [run, hread, hcreate, hmap, hrun]

/-- **Whole records.** A map task writes all that was emitted, and counts it. At an item that cannot
be written down it fails and leaves what was written up to the last complete chunk before; when the
map function fails it leaves an empty file, and when the input cannot be read it leaves everything
as it was. -/
theorem run_whole_records (map : MapFunction) (aux : Bytes) (input output : Path) (t : FileTree) :
    (∀ contents items lines, t.openFile input >>= t.read = .ok contents → t.Ordinary output →
        map ⟨Bytes.ofString input.show, contents⟩ aux = .ok items →
        List.Forall₂ (fun item line => lineOf item = .ok line) items lines →
          ∃ place t', run map aux input output t = (.ok lines.length, t')
            ∧ t'.Stores output place lines.flatten)
      ∧ (∀ contents before bad after lines cause,
          t.openFile input >>= t.read = .ok contents → t.Ordinary output →
          map ⟨Bytes.ofString input.show, contents⟩ aux = .ok (before ++ bad :: after) →
          List.Forall₂ (fun item line => lineOf item = .ok line) before lines →
          lineOf bad = .error cause →
            ∃ j place t', LastWrite lines j ∧ run map aux input output t = (.error cause, t')
              ∧ t'.Stores output place (lines.take j).flatten)
      ∧ (∀ contents e, t.openFile input >>= t.read = .ok contents → t.Ordinary output →
          map ⟨Bytes.ofString input.show, contents⟩ aux = .error e →
            ∃ place t', run map aux input output t = (.error (.workload e), t')
              ∧ t'.Stores output place [])
      ∧ ∀ e, t.openFile input >>= t.read = .error e →
          run map aux input output t = (.error (.file "read" input e), t) := by
  refine ⟨?_, ?_, ?_, ?_⟩
  · intro contents items lines hread hordinary hmap hitems
    exact run_of_lines hread hordinary hmap hitems
  · intro contents before bad after lines cause hread hordinary hmap hbefore hbad
    exact run_of_refused hread hordinary hmap hbefore hbad
  · intro contents e hread hordinary hmap
    exact run_of_map_eq_error hread hordinary hmap
  · intro e hread
    exact run_of_unread hread map aux output

def oneFile : FileTree :=
  ⟨[], [([], .directory), ([Bytes.ofString "in"], .file (Bytes.ofString "text")),
    ([Bytes.ofString "out"], .file (Bytes.ofString "old"))]⟩

/-- A record that is more than a chunk by itself, and one that is much less. -/
def bulky : Record :=
  ⟨Bytes.ofString "k", List.replicate chunkSize 0x78⟩

def small : Record :=
  ⟨Bytes.ofString "a", Bytes.ofString "1"⟩

theorem bulky_writable : bulky.Writable := by
  have hfree : ∀ b ∈ bulky.value, b = 0x78 := fun b hb => List.eq_of_mem_replicate hb
  exact ⟨⟨by decide +kernel, by decide +kernel, fun h => absurd (hfree _ h) (by decide),
    fun h => absurd (hfree _ h) (by decide)⟩, by decide +kernel⟩

theorem lineOf_writable {r : Record} (h : r.Writable) :
    lineOf (.ok r) = .ok r.line.terminate := by
  rw [lineOf, Record.encode_eq_ok_iff.mpr ⟨h, rfl⟩]
  rfl

theorem lastWrite_bulky_small :
    LastWrite ([bulky.line.terminate] ++ [small.line.terminate]) 1 := by
  have hlength : bulky.value.length = chunkSize := List.length_replicate
  have hchunk : IsChunk [bulky.line.terminate] := by
    refine ⟨?_, Nat.two_pow_pos 16⟩
    rw [List.flatten_singleton, ← hlength, Record.line, Bytes.terminate, List.append_assoc,
      List.length_append, List.length_append, List.length_cons]
    omega
  have hpoint : WritePoint [bulky.line.terminate] := writePoint_nil.append hchunk
  exact lastWrite_of_append hpoint (by decide +kernel)

theorem run_whole_records_bulky :
    (∃ place t', run (fun _ _ => .ok [.ok bulky, .ok small]) [] (Bytes.ofString "in")
          (Bytes.ofString "out") oneFile = (.ok 2, t')
        ∧ t'.Stores (Bytes.ofString "out") place
          [bulky.line.terminate, small.line.terminate].flatten)
      ∧ (∃ place t', run (fun _ _ => .ok [.ok bulky, .ok small, .ok ⟨Bytes.ofString "two words", []⟩,
            .error .notEdge]) [] (Bytes.ofString "in") (Bytes.ofString "out") oneFile
              = (.error (.unwritable (.invalidKey (Bytes.ofString "two words"))), t')
        ∧ t'.Stores (Bytes.ofString "out") place bulky.line.terminate)
      ∧ (∃ place t', run (fun _ _ => .error .notEdge) [] (Bytes.ofString "in")
            (Bytes.ofString "out") oneFile = (.error (.workload .notEdge), t')
        ∧ t'.Stores (Bytes.ofString "out") place [])
      ∧ run (fun _ _ => .ok []) [] (Bytes.ofString "none") (Bytes.ofString "out") oneFile
        = (.error (.file "read" (Bytes.ofString "none") .noEntry), oneFile) := by
  have hread : oneFile.openFile (Bytes.ofString "in") >>= oneFile.read
      = .ok (Bytes.ofString "text") := by decide +kernel
  have hordinary : oneFile.Ordinary (Bytes.ofString "out") := by decide +kernel
  have hlines : List.Forall₂ (fun item line => lineOf item = .ok line) [.ok bulky, .ok small]
      [bulky.line.terminate, small.line.terminate] :=
    .cons (lineOf_writable bulky_writable) (.cons (lineOf_writable (by decide +kernel)) .nil)
  refine ⟨?_, ?_, ?_, ?_⟩
  · exact (run_whole_records _ [] (Bytes.ofString "in") (Bytes.ofString "out") oneFile).1 _ _ _
      hread hordinary rfl hlines
  · obtain ⟨j, place, t', hlast, hrun, hstores⟩ := (run_whole_records
      (fun _ _ => .ok [.ok bulky, .ok small, .ok ⟨Bytes.ofString "two words", []⟩, .error .notEdge])
      [] (Bytes.ofString "in") (Bytes.ofString "out") oneFile).2.1 _ [.ok bulky, .ok small]
        (.ok ⟨Bytes.ofString "two words", []⟩) [.error .notEdge] _
        (.unwritable (.invalidKey (Bytes.ofString "two words"))) hread hordinary rfl hlines
        (by decide +kernel)
    obtain rfl := hlast.unique lastWrite_bulky_small
    refine ⟨place, t', hrun, ?_⟩
    rwa [List.take_succ_cons, List.take_zero, List.flatten_singleton] at hstores
  · exact (run_whole_records _ [] (Bytes.ofString "in") (Bytes.ofString "out") oneFile).2.2.1 _ _
      hread hordinary rfl
  · exact (run_whole_records _ [] (Bytes.ofString "none") (Bytes.ofString "out") oneFile).2.2.2 _
      (by decide +kernel)

end MapReduce.MapTask
