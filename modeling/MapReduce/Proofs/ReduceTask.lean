import MapReduce.Proofs.MapTask
import MapReduce.Proofs.OpenGroup
import MapReduce.Proofs.Sorter

/-!
# What a reduce task calls and writes

A reduce task on a file of records calls the reduce function once for each key in the file, with one
value for each record of that key, and writes the results one after the other.
-/

namespace MapReduce

open FileTree (Rewritten)

namespace ReduceTask

variable {reduce : ReduceFunction} {aux : Bytes} {input output : Path}
  {writer writer' : BlockWriter} {n : Nat} {log log' : List ReduceCall} {records : List Record}

/-! ### Sorted records -/

/-- All lines are read if and only if each is a record. -/
theorem readRecords_eq_iff {lines : List Bytes} :
    readRecords [] lines = (records, none) ↔ lines.map Record.split = records.map .ok := by
  induction lines generalizing records with
  | nil => simp [readRecords, eq_comm]
  | cons line lines ih =>
      rw [readRecords, List.map_cons]
      cases Record.split line with
      | error e => cases records <;> simp
      | ok r =>
          dsimp only
          rw [readRecords_eq_append]
          cases records with
          | nil => simp
          | cons r' records =>
              rw [List.map_cons, List.cons.injEq, ← ih]
              simp [Prod.ext_iff, and_assoc]

/-- Records that can be read, in the order of their lines. -/
structure Ordered (records : List Record) : Prop where
  legible : ∀ r ∈ records, r.Legible
  ascending : (records.map Record.line).Pairwise fun a b => Bytes.le a b = true

theorem Ordered.pairwise_keys (h : Ordered records) :
    (records.map Record.key).Pairwise fun k k' => Bytes.keyLe k k' = true := by
  have hlines := h.ascending
  rw [List.pairwise_map] at hlines ⊢
  refine hlines.imp_of_mem fun ha hb hle => ?_
  exact Bytes.le_of_le_append_space (h.legible _ ha).space_notMem_key
    (h.legible _ hb).space_notMem_key hle

/-- The groups of ordered records: one for each key, in the order of the keys. -/
theorem Ordered.groups_eq (h : Ordered records) :
    groups records = (records.map Record.key).dedup.map fun k =>
      (k, valuesOf k (records.map Record.entry)) := by
  have hkeys : (records.map fun r => (r.key, r.value)).map Prod.fst = records.map Record.key := by
    simp [Function.comp_def]
  rw [groups, groupRuns_eq Bytes.keyLe_antisymm _ (by rw [hkeys]; exact h.pairwise_keys), hkeys]
  rfl

/-- The lines of one key start alike, so their order is the order of the values. -/
theorem Ordered.pairwise_valuesOf (h : Ordered records) (key : Bytes) :
    (valuesOf key (records.map Record.entry)).Pairwise fun a b => Bytes.le a b = true := by
  have hlines := h.ascending
  rw [List.pairwise_map] at hlines
  rw [valuesOf, List.pairwise_map, List.pairwise_filter, List.pairwise_map]
  refine hlines.imp fun {a b} hle ha hb => ?_
  have hka : a.key = key := of_decide_eq_true ha
  have hkb : b.key = key := of_decide_eq_true hb
  rw [Record.line, Record.line, hka, hkb, Bytes.le_append_left] at hle
  simpa [Bytes.le, Record.entry] using hle

def lineLe (a b : Record) : Bool :=
  Bytes.le a.line b.line

theorem map_line_mergeSort (records : List Record) :
    (records.mergeSort lineLe).map Record.line = (records.map Record.line).mergeSort Bytes.le :=
  List.map_mergeSort fun _ _ _ _ => rfl

theorem ordered_mergeSort (h : ∀ r ∈ records, r.Legible) : Ordered (records.mergeSort lineLe) where
  legible r hr := h r (List.mem_mergeSort.mp hr)
  ascending := by
    rw [map_line_mergeSort]
    exact Bytes.pairwise_mergeSort _

/-- The records of a file as a reduce task comes to see them. -/
def arranged (records : List Record) : List Record :=
  (records.map Record.withoutReturn).mergeSort lineLe

theorem ordered_arranged (h : ∀ r ∈ records, r.Writable) : Ordered (arranged records) := by
  apply ordered_mergeSort
  intro r hr
  obtain ⟨r', hr', rfl⟩ := List.mem_map.mp hr
  exact (h r' hr').toLegible.withoutReturn

theorem arranged_perm (records : List Record) :
    (arranged records).Perm (records.map Record.withoutReturn) :=
  List.mergeSort_perm _ _

/-- The values of a key are seen as they are if none of them ends in a carriage return. -/
theorem valuesOf_arranged_perm {key : Bytes}
    (h : ∀ r ∈ records, r.key = key → r.withoutReturn = r) :
    (valuesOf key ((arranged records).map Record.entry)).Perm
      (valuesOf key (records.map Record.entry)) := by
  have hsame : valuesOf key ((records.map Record.withoutReturn).map Record.entry)
      = valuesOf key (records.map Record.entry) := by
    induction records with
    | nil => rfl
    | cons r records ih =>
        have hrest := ih fun r' hr' => h r' (List.mem_cons_of_mem r hr')
        by_cases hr : r.key = key
        · have hfirst : r.withoutReturn = r := h r List.mem_cons_self hr
          rw [List.map_cons, List.map_cons, List.map_cons, hfirst, Record.entry, hr,
            valuesOf_cons_self, valuesOf_cons_self, hrest]
        · rw [List.map_cons, List.map_cons, List.map_cons,
            valuesOf_cons_of_ne (by exact hr), valuesOf_cons_of_ne (by exact hr), hrest]
  rw [← hsame]
  exact valuesOf_perm key ((arranged_perm records).map Record.entry)

theorem map_line_arranged (records : List Record) :
    (arranged records).map Record.line
      = ((records.map Record.withoutReturn).map Record.line).mergeSort Bytes.le :=
  map_line_mergeSort _

theorem legible_of_mem_arranged (h : ∀ r ∈ records, r.Writable) :
    ∀ r ∈ arranged records, r.Legible :=
  (ordered_arranged h).legible

theorem keys_arranged_perm (records : List Record) :
    ((arranged records).map Record.key).Perm (records.map Record.key) := by
  have h := (arranged_perm records).map Record.key
  simpa [List.map_map, Function.comp_def] using h

theorem pairwise_keys_arranged (h : ∀ r ∈ records, r.Writable) :
    ((arranged records).map Record.key).Pairwise fun k k' => Bytes.keyLe k k' = true :=
  (ordered_arranged h).pairwise_keys

theorem readLines_fileOf (h : ∀ r ∈ records, r.Writable) {text : List Char}
    (htext : Utf8.decode (Record.fileOf records) = .ok text) :
    readLines (Record.fileOf records)
      = .ok ((records.map Record.withoutReturn).map Record.line) := by
  rw [readLines, htext]
  dsimp only
  rw [Record.fileOf_eq, Bytes.split_flatMap_terminate (Record.newline_notMem_of_mem_map_line h)]
  simp [Record.line_withoutReturn]

theorem decode_of_readLines {contents : Bytes} {lines : List Bytes}
    (h : readLines contents = .ok lines) : ∃ text, Utf8.decode contents = .ok text := by
  unfold readLines at h
  split at h
  · simp at h
  · next text htext => exact ⟨text, htext⟩

/-- In the order of its lines, the file is read as these records. -/
structure Reads (contents : Bytes) (records : List Record) : Prop where
  lines : ∃ lines, readLines contents = .ok lines
    ∧ lines.mergeSort Bytes.le = records.map Record.line
  legible : ∀ r ∈ records, r.Legible

theorem Reads.ordered {contents : Bytes} (h : Reads contents records) : Ordered records where
  legible := h.legible
  ascending := by
    obtain ⟨lines, -, hsorted⟩ := h.lines
    rw [← hsorted]
    exact Bytes.pairwise_mergeSort lines

theorem Reads.unique {contents : Bytes} {records' : List Record} (h : Reads contents records)
    (h' : Reads contents records') : records = records' := by
  obtain ⟨lines, hread, hsorted⟩ := h.lines
  obtain ⟨lines', hread', hsorted'⟩ := h'.lines
  obtain rfl := Except.ok.inj (hread.symm.trans hread')
  have hrecords := readRecords_eq_iff.mpr (Record.map_split_map_line h.legible)
  have hrecords' := readRecords_eq_iff.mpr (Record.map_split_map_line h'.legible)
  rw [← hsorted, hsorted', hrecords'] at hrecords
  exact (Prod.mk.inj hrecords).1.symm

theorem reads_fileOf (h : ∀ r ∈ records, r.Writable) {text : List Char}
    (htext : Utf8.decode (Record.fileOf records) = .ok text) :
    Reads (Record.fileOf records) (arranged records) where
  lines := ⟨_, readLines_fileOf h htext, (map_line_arranged records).symm⟩
  legible := legible_of_mem_arranged h

/-! ### Reducing groups -/

variable {full : Bool} {bs : Bytes} {gs : List (Bytes × List Bytes)} {calls : List ReduceCall}

def Reduced (reduce : ReduceFunction) (aux : Bytes) (gs : List (Bytes × List Bytes))
    (results : List Bytes) : Prop :=
  List.Forall₂ (fun g result => reduce g.1 g.2 aux = .ok result) gs results

theorem Reduced.unique {results results' : List Bytes} (h : Reduced reduce aux gs results)
    (h' : Reduced reduce aux gs results') : results = results' :=
  List.right_unique_forall₂' (fun _ _ _ hb hc => Except.ok.inj (hb.symm.trans hc)) h h'

/-- The groups of sorted records, as calls. -/
def callsFor (sorted : List Record) : List ReduceCall :=
  (groups sorted).map fun g => ⟨g.1, g.2⟩

theorem length_callsFor (records : List Record) :
    (callsFor records).length = (groups records).length :=
  List.length_map _

theorem Ordered.callsFor_eq (h : Ordered records) :
    callsFor records = (records.map Record.key).dedup.map fun k =>
      ⟨k, valuesOf k (records.map Record.entry)⟩ := by
  rw [callsFor, h.groups_eq, List.map_map]
  rfl

theorem Ordered.map_key_callsFor (h : Ordered records) :
    (callsFor records).map ReduceCall.key = (records.map Record.key).dedup := by
  rw [h.callsFor_eq, List.map_map]
  exact List.map_id _

theorem Ordered.values_of_mem_callsFor (h : Ordered records) {call : ReduceCall}
    (hcall : call ∈ callsFor records) :
    call.values = valuesOf call.key (records.map Record.entry) := by
  rw [h.callsFor_eq] at hcall
  obtain ⟨k, -, rfl⟩ := List.mem_map.mp hcall
  rfl

/-- The reduce function gives these results when it is called like this. -/
def Answered (reduce : ReduceFunction) (aux : Bytes) (calls : List ReduceCall)
    (results : List Bytes) : Prop :=
  List.Forall₂ (fun call result => reduce call.key call.values aux = .ok result) calls results

theorem answered_callsFor_iff {results : List Bytes} :
    Answered reduce aux (callsFor records) results ↔ Reduced reduce aux (groups records) results :=
  List.forall₂_map_left_iff

theorem Answered.unique {results results' : List Bytes} (h : Answered reduce aux calls results)
    (h' : Answered reduce aux calls results') : results = results' :=
  List.right_unique_forall₂' (fun _ _ _ hb hc => Except.ok.inj (hb.symm.trans hc)) h h'

theorem exists_answered
    (h : ∀ call ∈ calls, ∃ result, reduce call.key call.values aux = .ok result) :
    ∃ results, Answered reduce aux calls results := by
  induction calls with
  | nil => exact ⟨[], .nil⟩
  | cons call calls ih =>
      obtain ⟨⟨result, hcall⟩, hcalls⟩ := List.forall_mem_cons.mp h
      obtain ⟨results, hresults⟩ := ih hcalls
      exact ⟨result :: results, .cons hcall hresults⟩

/-- The calls that are made when these are due, up to the first that fails, and its failure. -/
def callUpTo (reduce : ReduceFunction) (aux : Bytes) :
    List ReduceCall → List ReduceCall × Option WorkloadError
  | [] => ([], none)
  | call :: due =>
    match reduce call.key call.values aux with
    | .error e => ([call], some e)
    | .ok _ => (call :: (callUpTo reduce aux due).1, (callUpTo reduce aux due).2)

/-- How a task ends that only the reduce function can fail. -/
def endedBy {α : Type} (failure : Option WorkloadError) (result : α) : Except TaskError α :=
  match failure with
  | none => .ok result
  | some e => .error (.workload e)

theorem callUpTo_of_answered {results : List Bytes} (h : Answered reduce aux calls results) :
    callUpTo reduce aux calls = (calls, none) := by
  induction h with
  | nil => rfl
  | cons hcall _ ih =>
      rw [callUpTo, hcall]
      simp only [ih]

/-- What the calls before the first that fails give. -/
def answersUpTo (reduce : ReduceFunction) (aux : Bytes) : List ReduceCall → List Bytes
  | [] => []
  | call :: due =>
    match reduce call.key call.values aux with
    | .error _ => []
    | .ok result => result :: answersUpTo reduce aux due

/-- The calls that are due are all answered, or those before the first that fails. -/
theorem callUpTo_cases (reduce : ReduceFunction) (aux : Bytes) (due : List ReduceCall) :
    (Answered reduce aux due (answersUpTo reduce aux due) ∧ callUpTo reduce aux due = (due, none))
      ∨ ∃ answered failed later e, due = answered ++ failed :: later
        ∧ Answered reduce aux answered (answersUpTo reduce aux due)
        ∧ reduce failed.key failed.values aux = .error e
        ∧ callUpTo reduce aux due = (answered ++ [failed], some e) := by
  induction due with
  | nil => exact .inl ⟨.nil, rfl⟩
  | cons call due ih =>
      rw [callUpTo, answersUpTo]
      cases hcall : reduce call.key call.values aux with
      | error e => exact .inr ⟨[], call, due, e, rfl, .nil, hcall, rfl⟩
      | ok result =>
          rcases ih with ⟨hanswered, hcalls⟩ |
            ⟨answered, failed, later, e, hdue, hanswered, hfailed, hcalls⟩
          · exact .inl ⟨.cons hcall hanswered, by simp only [hcalls]⟩
          · refine .inr ⟨call :: answered, failed, later, e, ?_, .cons hcall hanswered, hfailed, ?_⟩
            · rw [hdue, List.cons_append]
            · simp only [hcalls, List.cons_append]

theorem mem_of_mem_callUpTo {call : ReduceCall} (h : call ∈ (callUpTo reduce aux calls).1) :
    call ∈ calls := by
  rcases callUpTo_cases reduce aux calls with
    ⟨-, hcalls⟩ | ⟨answered, failed, later, e, hdue, -, -, hcalls⟩
  · rwa [hcalls] at h
  · rw [hcalls] at h
    rw [hdue, List.append_cons]
    exact List.mem_append_left _ h

theorem emitAllWith_eq_ok (h : writer.Holds full bs)
    (hok : emitAllWith reduce.logged aux writer log gs = ((.ok (), writer'), log')) :
    ∃ results, Reduced reduce aux gs results ∧ writer'.Holds full (bs ++ results.flatten)
      ∧ log' = log ++ gs.map fun g => ⟨g.1, g.2⟩ := by
  induction gs generalizing writer bs log with
  | nil =>
      obtain ⟨rfl, rfl⟩ : writer = writer' ∧ log = log' := by simpa [emitAllWith] using hok
      exact ⟨[], .nil, by simpa using h, by simp⟩
  | cons g gs ih =>
      rw [emitAllWith, ReduceFunction.logged] at hok
      cases hreduce : reduce g.1 g.2 aux with
      | error e => simp [hreduce] at hok
      | ok result =>
          rcases hwrite : writer.write result with ⟨_ | _, writer₁⟩
          · simp [hreduce, hwrite] at hok
          · simp only [hreduce, hwrite] at hok
            obtain ⟨results, hresults, h', hlog⟩ := ih (h.write hwrite) hok
            refine ⟨result :: results, .cons hreduce hresults, ?_, ?_⟩
            · simpa using h'
            · simpa using hlog

/-- With room for the results, groups are reduced up to the first on which the reduce function
fails. -/
theorem emitAllWith_logged (h : writer.Holds false bs) (log : List ReduceCall)
    (gs : List (Bytes × List Bytes)) :
    ∃ writer', writer'.Holds false
        (bs ++ (answersUpTo reduce aux (gs.map fun g => ⟨g.1, g.2⟩)).flatten)
      ∧ emitAllWith reduce.logged aux writer log gs
        = ((endedBy (callUpTo reduce aux (gs.map fun g => ⟨g.1, g.2⟩)).2 (), writer'),
            log ++ (callUpTo reduce aux (gs.map fun g => ⟨g.1, g.2⟩)).1) := by
  induction gs generalizing writer bs log with
  | nil =>
      refine ⟨writer, ?_, by simp [emitAllWith, callUpTo, endedBy]⟩
      rwa [List.map_nil, answersUpTo, List.flatten_nil, List.append_nil]
  | cons g gs ih =>
      rw [emitAllWith, ReduceFunction.logged, List.map_cons, callUpTo, answersUpTo]
      cases hreduce : reduce g.1 g.2 aux with
      | error e =>
          refine ⟨writer, ?_, rfl⟩
          rwa [List.flatten_nil, List.append_nil]
      | ok result =>
          obtain ⟨writer₁, hwrite⟩ := h.write_ordinary result
          obtain ⟨writer', h', hrest⟩ := ih (h.write hwrite) (log ++ [⟨g.1, g.2⟩])
          refine ⟨writer', ?_, ?_⟩
          · rwa [List.flatten_cons, ← List.append_assoc]
          · simp only [hwrite]
            rw [hrest, List.append_assoc]
            rfl

theorem endingOf_eq_none_iff {bad : Option RecordError} {failure : Option IoError} :
    endingOf input bad failure = none ↔ bad = none ∧ failure = none := by
  simp [endingOf]

theorem emitSortedWith_eq_ok {sorted : Sorted} (h : writer.Holds full [])
    (hok : emitSortedWith reduce.logged aux input output writer sorted log
      = ((.ok n, writer'), log')) :
    ∃ records results, sorted.failure = none ∧ sorted.lines = records.map Record.line
      ∧ (∀ r ∈ records, r.Legible)
      ∧ n = (groups records).length ∧ Reduced reduce aux (groups records) results
      ∧ writer'.Holds full results.flatten ∧ writer'.sink.contents = results.flatten
      ∧ log' = log ++ (groups records).map fun g => ⟨g.1, g.2⟩ := by
  rcases hread : readRecords [] sorted.lines with ⟨records, bad⟩
  rw [emitSortedWith_eq, hread] at hok
  dsimp only at hok
  cases hending : endingOf input bad sorted.failure with
  | some ending =>
      rw [hending, emitEntriesWith, ← groups_eq_groupRuns] at hok
      rcases hemit : emitAllWith reduce.logged aux writer log (groups records).dropLast with
        ⟨⟨_ | _, _⟩, _⟩ <;> simp [hemit] at hok
  | none =>
      rw [hending] at hok
      obtain ⟨rfl, hend⟩ := endingOf_eq_none_iff.mp hending
      obtain ⟨hsorted, hlegible⟩ := Record.eq_map_line_of_map_split (readRecords_eq_iff.mp hread)
      rw [emitEntriesWith, ← groups_eq_groupRuns, Nat.zero_add] at hok
      rcases hemit : emitAllWith reduce.logged aux writer log (groups records) with
        ⟨⟨_ | _, writer₁⟩, log₁⟩
      · simp [hemit] at hok
      · obtain ⟨results, hresults, h₁, hlog⟩ := emitAllWith_eq_ok h hemit
        rcases hflush : writer₁.flush with ⟨_ | _, writer₂⟩
        · simp [hemit, hflush] at hok
        · obtain ⟨⟨hn, rfl⟩, rfl⟩ :
              ((groups records).length = n ∧ writer₂ = writer') ∧ log₁ = log' := by
            simpa [hemit, hflush] using hok
          obtain ⟨h₂, hcontents⟩ := h₁.flush hflush
          rw [List.nil_append] at h₂ hcontents
          exact ⟨records, results, hend, hsorted, hlegible, hn.symm, hresults, h₂, hcontents, hlog⟩

theorem emitSortedWith_logged (reduce : ReduceFunction) (aux : Bytes) (input output : Path)
    (hrecords : ∀ r ∈ records, r.Legible) (h : writer.Holds false []) (log : List ReduceCall) :
    ∃ writer', writer'.Holds false (answersUpTo reduce aux (callsFor records)).flatten
      ∧ emitSortedWith reduce.logged aux input output writer ⟨records.map Record.line, none⟩ log
      = ((endedBy (callUpTo reduce aux (callsFor records)).2 (callsFor records).length, writer'),
          log ++ (callUpTo reduce aux (callsFor records)).1) := by
  have hread := readRecords_eq_iff.mpr (Record.map_split_map_line hrecords)
  obtain ⟨writer₁, h₁, hemit⟩ := emitAllWith_logged h log (groups records)
  rw [← callsFor, List.nil_append] at h₁
  rw [← callsFor] at hemit
  rw [emitSortedWith_eq, hread, endingOf, Option.map_none, Option.map_none, Option.or_none,
    emitEntriesWith, ← groups_eq_groupRuns, hemit, Nat.zero_add, length_callsFor]
  cases (callUpTo reduce aux (callsFor records)).2 with
  | some e => exact ⟨writer₁, h₁, rfl⟩
  | none =>
      obtain ⟨writer₂, hflush⟩ := h₁.flush_ordinary
      exact ⟨writer₂, (h₁.flush hflush).1, by simp only [endedBy, hflush]⟩

/-! ### A whole task -/

variable {t t' : FileTree} {source : Location} {contents : Bytes}

/-- A reduce task that succeeds has read its input as records, has called the reduce function for
their groups, and has written the results down, whichever sorter it has used. -/
theorem exists_reads_of_runThrough_eq_ok {sorter : Sorter} (log : List ReduceCall)
    (hok : runThrough sorter reduce aux input output t = (.ok n, t')) :
    ∃ source contents records place full results, t.Stores input source contents
      ∧ Reads contents records ∧ n = (groups records).length ∧ t.resolve output = .ok place
      ∧ Reduced reduce aux (groups records) results
      ∧ t'.Holds place full results.flatten ∧ Rewritten [place] t t'
      ∧ (runThroughWith sorter reduce.logged aux input output t log).2
          = log ++ (groups records).map fun g => ⟨g.1, g.2⟩ := by
  rw [← fst_runThroughWith_logged sorter reduce aux input output t log] at hok
  rw [runThroughWith] at hok ⊢
  cases hopen : t.openFile input with
  | error e => simp [hopen] at hok
  | ok source =>
      cases hscratch : t.checkScratch (directoryOf output) with
      | error e => simp [hopen, hscratch] at hok
      | ok _ =>
          cases hsort : sorter.sort (t.read source >>= readLines) with
          | error e => simp [hopen, hscratch, hsort] at hok
          | ok sorted =>
              cases hcreate : t.create output with
              | error e => simp [hopen, hscratch, hsort, hcreate] at hok
              | ok created =>
                  obtain ⟨place, t₁⟩ := created
                  obtain ⟨hresolve, hrew, full, hplace, -⟩ := FileTree.create_eq_ok hcreate
                  obtain ⟨lines, hlines, hof⟩ := Sorter.exists_isOf hsort
                  obtain ⟨contents, hread, htext⟩ := bind_eq_ok.mp hlines
                  simp only [hopen, hscratch, hsort, hcreate] at hok ⊢
                  rcases hemit : emitSortedWith reduce.logged aux input output
                    (.ofSink (t₁.sinkAt place)) sorted log with ⟨⟨result, writer⟩, log'⟩
                  rw [hemit] at hok
                  obtain ⟨rfl, rfl⟩ := Prod.mk.inj hok
                  obtain ⟨records, results, hend, hsorted, hlegible, hn, hresults, hwriter, hsink,
                    hcalls⟩ := emitSortedWith_eq_ok hplace.holds_ofSink hemit
                  rw [hof.lines_eq hend] at hsorted
                  exact ⟨source, contents, records, place, full, results, ⟨hopen, hread⟩,
                    ⟨⟨lines, htext, hsorted⟩, hlegible⟩, hn, hresolve, hresults,
                    hplace.writeAt_closed hwriter hsink,
                    hrew.trans (FileTree.rewritten_writeAt _ _ _ _), hcalls⟩

section Sorters

variable {sorter : Sorter} {sorted : Sorted} (hopen : t.openFile input = .ok source)
  (hsort : sorter.sort (t.read source >>= readLines) = .ok sorted) (hend : sorted.failure = none)

include hopen hsort hend

/-- A sorter that does not fail on the lines of the input makes no difference to a reduce task. -/
theorem runThrough_eq_run : runThrough sorter reduce aux input output t
    = run reduce aux input output t := by
  simp only [run, runThrough, hopen, Sorter.sort_eq_inMemory hsort hend]

/-- Nor does it to the calls of the reduce function. -/
theorem runThroughWith_eq_runWith {σ : Type} (reduce : ReduceAction σ) (s : σ) :
    runThroughWith sorter reduce aux input output t s = runWith reduce aux input output t s := by
  simp only [runWith, runThroughWith, hopen, Sorter.sort_eq_inMemory hsort hend]

end Sorters

theorem run_eq_ok (log : List ReduceCall) (hopen : t.openFile input = .ok source)
    (hread : t.read source = .ok (Record.fileOf records)) (hrecords : ∀ r ∈ records, r.Writable)
    (hok : run reduce aux input output t = (.ok n, t')) :
    ∃ place full results, t.resolve output = .ok place
      ∧ Reduced reduce aux (groups (arranged records)) results
      ∧ t'.Holds place full results.flatten ∧ Rewritten [place] t t'
      ∧ (runWith reduce.logged aux input output t log).2
          = log ++ (groups (arranged records)).map fun g => ⟨g.1, g.2⟩ := by
  obtain ⟨source', contents, sorted, place, full, results, hstores, hreads, -, hresolve, hresults,
    hholds, hrew, hcalls⟩ := exists_reads_of_runThrough_eq_ok log hok
  obtain rfl := Except.ok.inj (hopen.symm.trans hstores.openFile)
  obtain rfl := Except.ok.inj (hread.symm.trans hstores.read)
  obtain ⟨lines, hlines, -⟩ := hreads.lines
  obtain ⟨text, htext⟩ := decode_of_readLines hlines
  obtain rfl := hreads.unique (reads_fileOf hrecords htext)
  exact ⟨place, full, results, hresolve, hresults, hholds, hrew, hcalls⟩

/-- When the files are in order, a reduce task calls the reduce function for the groups of its input
in order, and ends early only where that fails. -/
theorem runWith_of_reads {place : Location} (hstores : t.Stores input source contents)
    (hreads : Reads contents records) (hscratch : t.checkScratch (directoryOf output) = .ok ())
    (hplace : t.Creatable output place) (hordinary : t.get? place ≠ some .fullDevice)
    (log : List ReduceCall) :
    ∃ t', runWith reduce.logged aux input output t log
      = ((endedBy (callUpTo reduce aux (callsFor records)).2 (callsFor records).length, t'),
          log ++ (callUpTo reduce aux (callsFor records)).1) := by
  obtain ⟨place', t₁, hcreate, -, hwriter, -⟩ :=
    FileTree.Ordinary.create ⟨place, hplace, hordinary⟩
  obtain ⟨lines, hread, hsorted⟩ := hreads.lines
  obtain ⟨writer, -, hemit⟩ := emitSortedWith_logged reduce aux input output hreads.legible
    hwriter log
  have hlines : t.read source >>= readLines = .ok lines := by
    rw [hstores.read]
    exact hread
  refine ⟨t₁.writeAt place' 0 writer.closed.contents, ?_⟩
  simp only [runWith, runThroughWith, hstores.openFile, hscratch, hlines, Sorter.inMemory_ok,
    hcreate, hsorted, hemit]

theorem run_of_reduced {place : Location} {text : List Char} {results : List Bytes}
    (hopen : t.openFile input = .ok source)
    (hread : t.read source = .ok (Record.fileOf records)) (hrecords : ∀ r ∈ records, r.Writable)
    (htext : Utf8.decode (Record.fileOf records) = .ok text)
    (hscratch : t.checkScratch (directoryOf output) = .ok ())
    (hplace : t.Creatable output place) (hordinary : t.get? place ≠ some .fullDevice)
    (hresults : Reduced reduce aux (groups (arranged records)) results) :
    ∃ n t', run reduce aux input output t = (.ok n, t') := by
  obtain ⟨t', hcalls⟩ := runWith_of_reads ⟨hopen, hread⟩ (reads_fileOf hrecords htext) hscratch
    hplace hordinary []
  rw [callUpTo_of_answered (answered_callsFor_iff.mpr hresults)] at hcalls
  refine ⟨(callsFor (arranged records)).length, t', ?_⟩
  rw [← fst_runWith_logged reduce aux input output t [], hcalls]
  rfl

end ReduceTask

end MapReduce
