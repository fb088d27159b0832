import MapReduce.Proofs.KeyGroups

/-!
# Complete groups only

A reduce task that fails leaves the results of the groups before the failure. It reduces a group as
soon as the record of another key shows it to be complete; when a line is no record, or when the
sorter breaks off, the group that is open then is left out. Since the lines are sorted, no record of
a group that has been reduced comes later, not even behind a bad line.
-/

namespace MapReduce.ReduceTask

variable {records later : List Record} {lines after : List Bytes} {line bad : Bytes}
  {e : RecordError} {key : Bytes}

/-! ### The records among lines -/

/-- The records among lines of which some may be none. -/
def recordsAmong (lines : List Bytes) : List Record :=
  lines.filterMap fun line => (Record.split line).toOption

theorem recordsAmong_nil : recordsAmong [] = [] :=
  List.filterMap_nil

theorem recordsAmong_cons_of_ok {r : Record} (h : Record.split line = .ok r)
    (lines : List Bytes) : recordsAmong (line :: lines) = r :: recordsAmong lines := by
  simp [recordsAmong, h, Except.toOption]

theorem recordsAmong_cons_of_error (h : Record.split line = .error e) (lines : List Bytes) :
    recordsAmong (line :: lines) = recordsAmong lines := by
  simp [recordsAmong, h, Except.toOption]

theorem recordsAmong_map_line_append (h : ∀ r ∈ records, r.Legible) (lines : List Bytes) :
    recordsAmong (records.map Record.line ++ lines) = records ++ recordsAmong lines := by
  induction records with
  | nil => rfl
  | cons r records ih =>
      obtain ⟨hr, hrecords⟩ := List.forall_mem_cons.mp h
      rw [List.map_cons, List.cons_append, recordsAmong_cons_of_ok (Record.split_line hr),
        ih hrecords, List.cons_append]

theorem recordsAmong_map_line (h : ∀ r ∈ records, r.Legible) :
    recordsAmong (records.map Record.line) = records := by
  have hall := recordsAmong_map_line_append h []
  rwa [List.append_nil, recordsAmong_nil, List.append_nil] at hall

theorem legible_of_mem_recordsAmong : ∀ r ∈ recordsAmong lines, r.Legible := by
  induction lines with
  | nil => simp [recordsAmong]
  | cons line lines ih =>
      cases hsplit : Record.split line with
      | error e => rwa [recordsAmong_cons_of_error hsplit]
      | ok r =>
          rw [recordsAmong_cons_of_ok hsplit, List.forall_mem_cons]
          exact ⟨(Record.split_eq_ok_iff.mp hsplit).1, ih⟩

theorem map_line_recordsAmong_sublist (lines : List Bytes) :
    ((recordsAmong lines).map Record.line).Sublist lines := by
  induction lines with
  | nil => exact List.nil_sublist _
  | cons line lines ih =>
      cases hsplit : Record.split line with
      | error e =>
          rw [recordsAmong_cons_of_error hsplit]
          exact ih.cons line
      | ok r =>
          rw [recordsAmong_cons_of_ok hsplit, List.map_cons, (Record.split_eq_ok_iff.mp hsplit).2]
          exact ih.cons_cons r.line

theorem ordered_recordsAmong (h : lines.Pairwise fun a b => Bytes.le a b = true) :
    Ordered (recordsAmong lines) where
  legible := legible_of_mem_recordsAmong
  ascending := h.sublist (map_line_recordsAmong_sublist lines)

/-- Lines are records up to the first that is none. -/
theorem records_or_malformed (lines : List Bytes) :
    (∃ records : List Record, lines = records.map Record.line ∧ ∀ r ∈ records, r.Legible)
      ∨ ∃ (records : List Record) (bad : Bytes) (after : List Bytes) (e : RecordError),
        lines = records.map Record.line ++ bad :: after
        ∧ (∀ r ∈ records, r.Legible) ∧ Record.split bad = .error e := by
  induction lines with
  | nil => exact .inl ⟨[], rfl, by simp⟩
  | cons line lines ih =>
      cases hsplit : Record.split line with
      | error e => exact .inr ⟨[], line, lines, e, rfl, by simp, hsplit⟩
      | ok r =>
          obtain ⟨hr, rfl⟩ := Record.split_eq_ok_iff.mp hsplit
          rcases ih with ⟨records, rfl, hrecords⟩ | ⟨records, bad, after, e, rfl, hrecords, hbad⟩
          · exact .inl ⟨r :: records, rfl, List.forall_mem_cons.mpr ⟨hr, hrecords⟩⟩
          · exact .inr ⟨r :: records, bad, after, e, rfl, List.forall_mem_cons.mpr ⟨hr, hrecords⟩,
              hbad⟩

theorem readRecords_of_malformed (hrecords : ∀ r ∈ records, r.Legible)
    (hbad : Record.split bad = .error e) (after : List Bytes) :
    readRecords [] (records.map Record.line ++ bad :: after) = (records, some e) := by
  induction records with
  | nil =>
      rw [List.map_nil, List.nil_append, readRecords, hbad]
      rfl
  | cons r records ih =>
      obtain ⟨hr, hrecords⟩ := List.forall_mem_cons.mp hrecords
      rw [List.map_cons, List.cons_append, readRecords, Record.split_line hr]
      dsimp only
      rw [readRecords_eq_append, ih hrecords]
      rfl

/-! ### Groups that are complete -/

theorem exists_eq_append_of_dropLast {α : Type} {xs ys zs : List α} {x : α}
    (h : xs.dropLast = ys ++ x :: zs) : ∃ last, xs = ys ++ x :: (zs ++ [last]) := by
  have hne : xs ≠ [] := by
    intro hnil
    simp [hnil] at h
  refine ⟨xs.getLast hne, ?_⟩
  calc xs = xs.dropLast ++ [xs.getLast hne] := (List.dropLast_append_getLast hne).symm
    _ = ys ++ x :: (zs ++ [xs.getLast hne]) := by rw [h, List.append_assoc, List.cons_append]

/-- In a list that ascends, what is not the last before a place does not come after it. -/
theorem notMem_of_mem_dropLast {ks ks' : List Bytes}
    (h : (ks ++ ks').Pairwise fun k k' => Bytes.keyLe k k' = true) (hkey : key ∈ ks.dedup.dropLast) :
    key ∉ ks' := by
  intro hlater
  obtain ⟨hks, -, hcross⟩ := List.pairwise_append.mp h
  have hne : ks.dedup ≠ [] := by
    intro hnil
    simp [hnil] at hkey
  have hsplit := List.dropLast_append_getLast hne
  have hlast : ks.dedup.getLast hne ∈ ks := List.mem_dedup.mp (List.getLast_mem hne)
  have hascend := hks.sublist (List.dedup_sublist ks)
  have hnodup := List.nodup_dedup ks
  rw [← hsplit] at hascend hnodup
  have hle := (List.pairwise_append.mp hascend).2.2 key hkey _ (List.mem_singleton_self _)
  have hge := hcross _ hlast key hlater
  have heq := Bytes.keyLe_antisymm hle hge
  exact (List.nodup_append.mp hnodup).2.2 key hkey _ (List.mem_singleton_self _) heq

/-- The values of a group that another key follows are all that there are. -/
theorem Ordered.valuesOf_append (h : Ordered (records ++ later))
    (hkey : key ∈ (records.map Record.key).dedup.dropLast) :
    valuesOf key ((records ++ later).map Record.entry) = valuesOf key (records.map Record.entry) := by
  have hkeys := h.pairwise_keys
  rw [List.map_append] at hkeys
  have hnone : key ∉ (later.map Record.entry).map Prod.fst := by
    rw [List.map_map]
    exact notMem_of_mem_dropLast hkeys hkey
  rw [List.map_append, MapReduce.valuesOf_append, valuesOf_of_notMem hnone, List.append_nil]

theorem Ordered.of_append (h : Ordered (records ++ later)) : Ordered records where
  legible r hr := h.legible r (List.mem_append_left _ hr)
  ascending := by
    have hlines := h.ascending
    rw [List.map_append] at hlines
    exact (List.pairwise_append.mp hlines).1

/-- The calls of all groups but the last are complete whatever records come later. -/
theorem Ordered.values_of_mem_dropLast (h : Ordered (records ++ later)) {call : ReduceCall}
    (hcall : call ∈ (callsFor records).dropLast) :
    call.values = valuesOf call.key ((records ++ later).map Record.entry) := by
  have hkey : call.key ∈ (records.map Record.key).dedup.dropLast := by
    rw [← h.of_append.map_key_callsFor, ← List.map_dropLast]
    exact List.mem_map_of_mem hcall
  rw [h.valuesOf_append hkey]
  exact h.of_append.values_of_mem_callsFor ((List.dropLast_sublist _).subset hcall)

/-! ### Where a task stops -/

variable {reduce : ReduceFunction} {aux : Bytes} {input output : Path} {writer writer' : BlockWriter}
  {sorted : List Bytes} {given : Sorted} {log : List ReduceCall} {cause : TaskError}

/-- These calls have been answered when a task fails on sorted lines. Either the reduce function
fails on the next of the distinct keys, which was complete, or a line is no record, and the last of
the distinct keys before it is left out. The log has the calls that were made. -/
inductive Stopped (reduce : ReduceFunction) (aux : Bytes) (input : Path) (sorted : List Bytes)
    (answered : List ReduceCall) : TaskError → List ReduceCall → Prop where
  | refused {before after : List Bytes} {records : List Record} {failed : ReduceCall}
      {later : List Bytes} {e : WorkloadError} (hlines : sorted = before ++ after)
      (hrecords : before.map Record.split = records.map .ok)
      (hkeys : (records.map Record.key).dedup
        = answered.map ReduceCall.key ++ failed.key :: later)
      -- Only at the end of the lines is the last key known to be complete.
      (hcomplete : later = [] → after = [])
      (hrefusal : reduce failed.key failed.values aux = .error e) :
      Stopped reduce aux input sorted answered (.workload e) (answered ++ [failed])
  | malformed {before after : List Bytes} {bad : Bytes} {records : List Record} {e : RecordError}
      (hlines : sorted = before ++ bad :: after)
      (hrecords : before.map Record.split = records.map .ok)
      (hbad : Record.split bad = .error e)
      (hkeys : answered.map ReduceCall.key = (records.map Record.key).dedup.dropLast) :
      Stopped reduce aux input sorted answered (.badRecord input e) answered

/-- When the reading comes to no good end, all groups but the last are reduced. -/
theorem emitSortedWith_of_ending {bad : Option RecordError} {ending : TaskError}
    (hread : readRecords [] given.lines = (records, bad))
    (hending : endingOf input bad given.failure = some ending) (h : writer.Holds false [])
    (output : Path) (log : List ReduceCall) :
    ∃ writer', writer'.Holds false (answersUpTo reduce aux (callsFor records).dropLast).flatten
      ∧ emitSortedWith reduce.logged aux input output writer given log
        = ((.error (((callUpTo reduce aux (callsFor records).dropLast).2.map .workload).getD
              ending), writer'),
            log ++ (callUpTo reduce aux (callsFor records).dropLast).1) := by
  obtain ⟨writer₁, h₁, hemit⟩ := emitAllWith_logged h log (groups records).dropLast
  rw [List.map_dropLast, ← callsFor] at h₁ hemit
  refine ⟨writer₁, h₁, ?_⟩
  rw [emitSortedWith_eq, hread, hending, emitEntriesWith, ← groups_eq_groupRuns, hemit]
  cases (callUpTo reduce aux (callsFor records).dropLast).2 with
  | none => rfl
  | some e => rfl

/-- What is known of a failure on sorted lines: the output, the calls, and where they stopped. -/
structure Cut (reduce : ReduceFunction) (aux : Bytes) (input : Path) (sorted : List Bytes)
    (cause : TaskError) (log : List ReduceCall) (bs : Bytes) : Prop where
  stopped : ∃ answered results, Answered reduce aux answered results ∧ results.flatten = bs
    ∧ Stopped reduce aux input sorted answered cause log
  complete : ∀ call ∈ log, call.values = valuesOf call.key ((recordsAmong sorted).map Record.entry)

/-- What is known when the sorter breaks off in the middle of the sorted lines: the calls, which
have been answered for all keys so far but the last, and the output. -/
structure BrokenOff (reduce : ReduceFunction) (aux : Bytes) (sorted : List Bytes)
    (log : List ReduceCall) (bs : Bytes) : Prop where
  answered : ∃ results, Answered reduce aux log results ∧ results.flatten = bs
  keys : ∃ (before : List Bytes) (records : List Record), before <+: sorted
    ∧ before.map Record.split = records.map .ok
    ∧ log.map ReduceCall.key = (records.map Record.key).dedup.dropLast
  complete : ∀ call ∈ log, call.values = valuesOf call.key ((recordsAmong sorted).map Record.entry)

/-- When all lines are records, the reduce function has failed. -/
theorem cut_of_records (hordered : Ordered records) (h : writer.Holds false [])
    (hfail : emitSortedWith reduce.logged aux input output writer
      ⟨records.map Record.line, none⟩ [] = ((.error cause, writer'), log)) :
    ∃ bs, writer'.Holds false bs
      ∧ Cut reduce aux input (records.map Record.line) cause log bs := by
  obtain ⟨writer₁, hwriter, hemit⟩ :=
    emitSortedWith_logged reduce aux input output hordered.legible h []
  rw [hfail, List.nil_append] at hemit
  obtain ⟨⟨hresult, rfl⟩, rfl⟩ : (Except.error cause
        = endedBy (callUpTo reduce aux (callsFor records)).2 (callsFor records).length
      ∧ writer' = writer₁) ∧ log = (callUpTo reduce aux (callsFor records)).1 := by
    simpa only [Prod.mk.injEq] using hemit
  refine ⟨_, hwriter, ?_, ?_⟩
  · rcases callUpTo_cases reduce aux (callsFor records) with
      ⟨-, hcalls⟩ | ⟨answered, failed, later, e, hdue, hanswered, hfailed, hcalls⟩
    · rw [hcalls] at hresult
      exact absurd hresult (by simp [endedBy])
    · rw [hcalls] at hresult ⊢
      obtain rfl : cause = .workload e := Except.error.inj hresult
      have hkeys := hordered.map_key_callsFor
      rw [hdue, List.map_append, List.map_cons] at hkeys
      exact ⟨answered, _, hanswered, rfl, .refused (List.append_nil _).symm
        (Record.map_split_map_line hordered.legible) hkeys.symm (fun _ => rfl) hfailed⟩
  · intro call hcall
    rw [recordsAmong_map_line hordered.legible]
    exact hordered.values_of_mem_callsFor (mem_of_mem_callUpTo hcall)

/-- When the reading comes to no good end, the reduce function has failed on a group before the last,
or it has answered for all of these and the ending is the cause. -/
theorem cut_or_answered_of_ending {bad : Option RecordError} {ending : TaskError}
    (hordered : Ordered (records ++ recordsAmong after))
    (hread : readRecords [] given.lines = (records, bad))
    (hending : endingOf input bad given.failure = some ending) (h : writer.Holds false [])
    (hfail : emitSortedWith reduce.logged aux input output writer given []
      = ((.error cause, writer'), log)) :
    ∃ bs, writer'.Holds false bs
      ∧ (∀ call ∈ log, call.values = valuesOf call.key
          ((recordsAmong (records.map Record.line ++ after)).map Record.entry))
      ∧ (Cut reduce aux input (records.map Record.line ++ after) cause log bs
        ∨ cause = ending ∧ (∃ results, Answered reduce aux log results ∧ results.flatten = bs)
          ∧ log.map ReduceCall.key = (records.map Record.key).dedup.dropLast) := by
  have hlegible := hordered.of_append.legible
  obtain ⟨writer₁, hwriter, hemit⟩ := emitSortedWith_of_ending hread hending h output []
  rw [hfail, List.nil_append] at hemit
  obtain ⟨⟨hcause, rfl⟩, rfl⟩ : (cause
        = ((callUpTo reduce aux (callsFor records).dropLast).2.map .workload).getD ending
      ∧ writer' = writer₁) ∧ log = (callUpTo reduce aux (callsFor records).dropLast).1 := by
    simpa only [Prod.mk.injEq, Except.error.injEq] using hemit
  have hkeys : (callsFor records).dropLast.map ReduceCall.key
      = (records.map Record.key).dedup.dropLast := by
    rw [List.map_dropLast, hordered.of_append.map_key_callsFor]
  have hcomplete : ∀ call ∈ (callUpTo reduce aux (callsFor records).dropLast).1,
      call.values = valuesOf call.key
        ((recordsAmong (records.map Record.line ++ after)).map Record.entry) := by
    intro call hcall
    rw [recordsAmong_map_line_append hlegible]
    exact hordered.values_of_mem_dropLast (mem_of_mem_callUpTo hcall)
  refine ⟨_, hwriter, hcomplete, ?_⟩
  rcases callUpTo_cases reduce aux (callsFor records).dropLast with
    ⟨hanswered, hcalls⟩ | ⟨answered, failed, later, e, hdue, hanswered, hfailed, hcalls⟩
  · rw [hcalls] at hcause ⊢
    exact .inr ⟨hcause, ⟨_, hanswered, rfl⟩, hkeys⟩
  · rw [hcalls] at hcause hcomplete ⊢
    obtain rfl : cause = .workload e := hcause
    rw [hdue, List.map_append, List.map_cons] at hkeys
    obtain ⟨last, hdedup⟩ := exists_eq_append_of_dropLast hkeys.symm
    exact .inl ⟨⟨answered, _, hanswered, rfl, .refused rfl
      (Record.map_split_map_line hlegible) hdedup (fun hnil => by simp at hnil) hfailed⟩, hcomplete⟩

/-- In front of a bad line the reduce function has failed, or the line is the cause. -/
theorem cut_of_malformed (hordered : Ordered (records ++ recordsAmong (bad :: after)))
    (hbad : Record.split bad = .error e) {later : List Bytes}
    (hlines : given.lines = records.map Record.line ++ bad :: later) (h : writer.Holds false [])
    (hfail : emitSortedWith reduce.logged aux input output writer given []
      = ((.error cause, writer'), log)) :
    ∃ bs, writer'.Holds false bs
      ∧ Cut reduce aux input (records.map Record.line ++ bad :: after) cause log bs := by
  have hlegible := hordered.of_append.legible
  have hread := readRecords_of_malformed hlegible hbad later
  rw [← hlines] at hread
  obtain ⟨bs, hwriter, hcomplete, hcut | ⟨rfl, ⟨results, hanswered, hbs⟩, hkeys⟩⟩ :=
    cut_or_answered_of_ending hordered hread rfl h hfail
  · exact ⟨bs, hwriter, hcut⟩
  · exact ⟨bs, hwriter, ⟨log, results, hanswered, hbs,
      .malformed rfl (Record.map_split_map_line hlegible) hbad hkeys⟩, hcomplete⟩

/-- When the lines that are given out are records and no more come, the reduce function has failed,
or the sorter has. -/
theorem cut_or_brokenOff (hordered : Ordered (records ++ recordsAmong after)) {failure : IoError}
    (h : writer.Holds false [])
    (hfail : emitSortedWith reduce.logged aux input output writer
      ⟨records.map Record.line, some failure⟩ [] = ((.error cause, writer'), log)) :
    ∃ bs, writer'.Holds false bs
      ∧ (Cut reduce aux input (records.map Record.line ++ after) cause log bs
        ∨ cause = .sortInput input failure
          ∧ BrokenOff reduce aux (records.map Record.line ++ after) log bs) := by
  have hsplit := Record.map_split_map_line hordered.of_append.legible
  obtain ⟨bs, hwriter, hcomplete, hcut | ⟨rfl, hanswered, hkeys⟩⟩ :=
    cut_or_answered_of_ending hordered (readRecords_eq_iff.mpr hsplit) rfl h hfail
  · exact ⟨bs, hwriter, .inl hcut⟩
  · exact ⟨bs, hwriter, .inr ⟨rfl, hanswered,
      ⟨_, records, List.prefix_append _ _, hsplit, hkeys⟩, hcomplete⟩⟩

/-- However a task fails on what a sorter gives out, only complete groups have been reduced. -/
theorem cut_or_brokenOff_of_emitSortedWith (hof : given.IsOf lines) (h : writer.Holds false [])
    (hfail : emitSortedWith reduce.logged aux input output writer given []
      = ((.error cause, writer'), log)) :
    ∃ bs, writer'.Holds false bs
      ∧ (Cut reduce aux input (lines.mergeSort Bytes.le) cause log bs
        ∨ ∃ failure, given.failure = some failure ∧ cause = .sortInput input failure
          ∧ BrokenOff reduce aux (lines.mergeSort Bytes.le) log bs) := by
  obtain ⟨missing, hperm, hascend, hall⟩ := hof
  have hordered := ordered_recordsAmong hascend
  rw [← Bytes.eq_mergeSort_of_perm hperm hascend]
  obtain ⟨given, failure⟩ := given
  dsimp only at hordered hall ⊢
  rcases records_or_malformed given with
    ⟨records, rfl, hlegible⟩ | ⟨records, bad, later, e, rfl, hlegible, hbad⟩
  · rw [recordsAmong_map_line_append hlegible] at hordered
    cases failure with
    | none =>
        obtain rfl := hall rfl
        rw [recordsAmong_nil, List.append_nil] at hordered
        obtain ⟨bs, hwriter, hcut⟩ := cut_of_records hordered h hfail
        exact ⟨bs, hwriter, .inl (by rwa [List.append_nil])⟩
    | some failure =>
        obtain ⟨bs, hwriter, hcut | ⟨hcause, hbroken⟩⟩ := cut_or_brokenOff hordered h hfail
        · exact ⟨bs, hwriter, .inl hcut⟩
        · exact ⟨bs, hwriter, .inr ⟨failure, rfl, hcause, hbroken⟩⟩
  · rw [List.append_assoc, List.cons_append] at hordered ⊢
    rw [recordsAmong_map_line_append hlegible] at hordered
    obtain ⟨bs, hwriter, hcut⟩ := cut_of_malformed hordered hbad rfl h hfail
    exact ⟨bs, hwriter, .inl hcut⟩

/-! ### Whole tasks -/

variable {t t' : FileTree} {source : Location} {contents : Bytes}

theorem read_bind_readLines (hstores : t.Stores input source contents)
    (htext : Utf8.IsText contents) : t.read source >>= readLines = .ok (textLines contents) := by
  rw [hstores.read]
  exact readLines_of_isText htext

theorem isText_of_readLines (h : readLines contents = .ok lines) : Utf8.IsText contents := by
  obtain ⟨text, htext⟩ := decode_of_readLines h
  exact Utf8.isText_iff_decode.mpr ⟨text, htext⟩

/-- An input that cannot be opened or is no text stops the task before the output is created. -/
theorem runThrough_of_not_text {sorter : Sorter}
    (hfail : runThrough sorter reduce aux input output t = (.error cause, t'))
    (hinput : ∀ source contents, t.Stores input source contents → ¬ Utf8.IsText contents) :
    t' = t := by
  rw [runThrough] at hfail
  cases hopen : t.openFile input with
  | error e =>
      rw [hopen] at hfail
      exact (Prod.mk.inj hfail).2.symm
  | ok source =>
      cases hscratch : t.checkScratch (directoryOf output) with
      | error e =>
          simp only [hopen, hscratch] at hfail
          exact (Prod.mk.inj hfail).2.symm
      | ok u =>
          cases hsort : sorter.sort (t.read source >>= readLines) with
          | error e =>
              simp only [hopen, hscratch, hsort] at hfail
              exact (Prod.mk.inj hfail).2.symm
          | ok given =>
              obtain ⟨lines, hlines, -⟩ := Sorter.exists_isOf hsort
              obtain ⟨contents, hread, htext⟩ := bind_eq_ok.mp hlines
              exact absurd (isText_of_readLines htext) (hinput source contents ⟨hopen, hread⟩)

/-- A task that fails on what the sorter gives out. -/
theorem cut_or_brokenOff_of_runThrough {sorter : Sorter} (hstores : t.Stores input source contents)
    (htext : Utf8.IsText contents) (hscratch : t.checkScratch (directoryOf output) = .ok ())
    (hsort : sorter.sort (.ok (textLines contents)) = .ok given) (hordinary : t.Ordinary output)
    (hfail : runThrough sorter reduce aux input output t = (.error cause, t')) :
    ∃ place log bs, t'.Stores output place bs
      ∧ runThroughWith sorter reduce.logged aux input output t [] = ((.error cause, t'), log)
      ∧ (Cut reduce aux input ((textLines contents).mergeSort Bytes.le) cause log bs
        ∨ ∃ failure, given.failure = some failure ∧ cause = .sortInput input failure
          ∧ BrokenOff reduce aux ((textLines contents).mergeSort Bytes.le) log bs) := by
  obtain ⟨place, t₁, hcreate, -, hwriter, hstored⟩ := hordinary.create
  have hlines := read_bind_readLines hstores htext
  rcases hemit : emitSortedWith reduce.logged aux input output (.ofSink (t₁.sinkAt place)) given []
    with ⟨⟨result, writer'⟩, log⟩
  have hcalls : runThroughWith sorter reduce.logged aux input output t []
      = ((result, t₁.writeAt place 0 writer'.closed.contents), log) := by
    simp only [runThroughWith, hstores.openFile, hscratch, hlines, hsort, hcreate, hemit]
  rw [← fst_runThroughWith_logged sorter reduce aux input output t [], hcalls] at hfail
  obtain ⟨rfl, rfl⟩ := Prod.mk.inj hfail
  obtain ⟨bs, hwritten, hcut⟩ :=
    cut_or_brokenOff_of_emitSortedWith (sorter.isOf hsort) hwriter hemit
  exact ⟨place, log, bs, hstored writer' bs hwritten, hcalls, hcut⟩

/-- **Complete groups, through any sorter.** A reduce task that fails changes nothing when its input
is no text, or when it cannot be sorted. Otherwise the output has the results of the groups that
were complete before the failure and nothing else, also when the sorter breaks off. -/
theorem runThrough_complete_groups {sorter : Sorter} (hordinary : t.Ordinary output)
    (hfail : runThrough sorter reduce aux input output t = (.error cause, t')) :
    ((∀ source contents, t.Stores input source contents → ¬ Utf8.IsText contents) → t' = t)
      ∧ ∀ source contents, t.Stores input source contents → Utf8.IsText contents →
          (∃ e, cause = .sortSetup e ∧ t' = t)
            ∨ (∃ e, sorter.sort (.ok (textLines contents)) = .error e
              ∧ cause = .sortInput input e ∧ t' = t)
            ∨ ∃ given place log bs, sorter.sort (.ok (textLines contents)) = .ok given
              ∧ t'.Stores output place bs
              ∧ runThroughWith sorter reduce.logged aux input output t [] = ((.error cause, t'), log)
              ∧ (Cut reduce aux input ((textLines contents).mergeSort Bytes.le) cause log bs
                ∨ ∃ failure, given.failure = some failure ∧ cause = .sortInput input failure
                  ∧ BrokenOff reduce aux ((textLines contents).mergeSort Bytes.le) log bs) := by
  refine ⟨runThrough_of_not_text hfail, ?_⟩
  intro source contents hstores htext
  cases hscratch : t.checkScratch (directoryOf output) with
  | error e =>
      simp only [runThrough, hstores.openFile, hscratch, Prod.mk.injEq, Except.error.injEq] at hfail
      exact .inl ⟨e, hfail.1.symm, hfail.2.symm⟩
  | ok _ =>
      have hlines := read_bind_readLines hstores htext
      cases hsort : sorter.sort (.ok (textLines contents)) with
      | error e =>
          simp only [runThrough, hstores.openFile, hscratch, hlines, hsort, Prod.mk.injEq,
            Except.error.injEq] at hfail
          exact .inr (.inl ⟨e, rfl, hfail.1.symm, hfail.2.symm⟩)
      | ok given =>
          obtain ⟨place, log, bs, hstored, hcalls, hends⟩ :=
            cut_or_brokenOff_of_runThrough hstores htext hscratch hsort hordinary hfail
          exact .inr (.inr ⟨given, place, log, bs, rfl, hstored, hcalls, hends⟩)

/-- **Complete groups.** A reduce task that fails changes nothing when its input is no text, or when
it cannot be sorted. Otherwise the output has the results of the groups that were complete before
the failure and nothing else. -/
theorem run_complete_groups (hordinary : t.Ordinary output)
    (hfail : run reduce aux input output t = (.error cause, t')) :
    ((∀ source contents, t.Stores input source contents → ¬ Utf8.IsText contents) → t' = t)
      ∧ ∀ source contents, t.Stores input source contents → Utf8.IsText contents →
          (∃ e, cause = .sortSetup e ∧ t' = t)
            ∨ ∃ place log bs, t'.Stores output place bs
              ∧ runWith reduce.logged aux input output t [] = ((.error cause, t'), log)
              ∧ Cut reduce aux input ((textLines contents).mergeSort Bytes.le) cause log bs := by
  obtain ⟨hnotText, hothers⟩ := runThrough_complete_groups hordinary hfail
  refine ⟨hnotText, ?_⟩
  intro source contents hstores htext
  rcases hothers source contents hstores htext with
    hsetup | ⟨e, hsort, -⟩ | ⟨given, place, log, bs, hsort, hstored, hcalls, hends⟩
  · exact .inl hsetup
  · cases hsort
  · obtain rfl := Except.ok.inj (hsort.symm.trans (Sorter.inMemory_ok _))
    rcases hends with hcut | ⟨failure, hend, -⟩
    · exact .inr ⟨place, log, bs, hstored, hcalls, hcut⟩
    · cases hend

/-- How a task fails can be seen from its lines in their order. -/
theorem run_eq_error_of_sorted {place : Location} {t₁ : FileTree}
    (hstores : t.Stores input source contents) (htext : Utf8.IsText contents)
    (hscratch : t.checkScratch (directoryOf output) = .ok ())
    (hcreate : t.create output = .ok (place, t₁))
    (hsorted : (textLines contents).mergeSort Bytes.le = sorted)
    (hfail : (emitSorted reduce aux input output (.ofSink (t₁.sinkAt place)) ⟨sorted, none⟩).1
      = .error cause) :
    run reduce aux input output t
      = (.error cause, t₁.writeAt place 0 (emitSorted reduce aux input output
          (.ofSink (t₁.sinkAt place)) ⟨sorted, none⟩).2.closed.contents) := by
  have hlines := read_bind_readLines hstores htext
  simp only [run, runThrough, hstores.openFile, hscratch, hlines, Sorter.inMemory_ok, hcreate,
    hsorted, hfail]

/-- In the one file a line is no record, and in the other a key has a bang. -/
def twoBroken : FileTree :=
  ⟨[], [([], .directory),
    ([Bytes.ofString "line"], .file (Bytes.ofString "b 3\nc 1\nb 1 2\na 1\nb 1\n")),
    ([Bytes.ofString "key"], .file (Bytes.ofString "c 1\n!b 1\n\ta 1\n"))]⟩

def brokenLine : List Bytes :=
  ["a 1", "b 1", "b 1 2", "b 3", "c 1"].map Bytes.ofString

def brokenKey : List Bytes :=
  ["\ta 1", "!b 1", "c 1"].map Bytes.ofString

theorem run_complete_groups_twoBroken :
    (∃ t' place log, run Echo.reduce [] (Bytes.ofString "line") (Bytes.ofString "out") twoBroken
          = (.error (.badRecord (Bytes.ofString "line") (.malformed (Bytes.ofString "b 1 2"))), t')
        ∧ t'.Stores (Bytes.ofString "out") place (Bytes.ofString "a[1]/\n")
        ∧ Cut Echo.reduce [] (Bytes.ofString "line") brokenLine
          (.badRecord (Bytes.ofString "line") (.malformed (Bytes.ofString "b 1 2"))) log
          (Bytes.ofString "a[1]/\n"))
      ∧ (∃ t' place log, run Echo.reduce [] (Bytes.ofString "key") (Bytes.ofString "out") twoBroken
          = (.error (.workload (.stated "reduce b")), t')
        ∧ t'.Stores (Bytes.ofString "out") place (Bytes.ofString "\ta[1]/\n")
        ∧ Cut Echo.reduce [] (Bytes.ofString "key") brokenKey (.workload (.stated "reduce b")) log
          (Bytes.ofString "\ta[1]/\n"))
      ∧ ∃ e, run Echo.reduce [] (Bytes.ofString "none") (Bytes.ofString "out") twoBroken
          = (.error e, twoBroken) := by
  have hordinary : twoBroken.Ordinary (Bytes.ofString "out") := by decide +kernel
  have hscratch : twoBroken.checkScratch (directoryOf (Bytes.ofString "out")) = .ok () := by
    decide +kernel
  have hcreate : twoBroken.create (Bytes.ofString "out")
      = .ok ([Bytes.ofString "out"], twoBroken.put [Bytes.ofString "out"] (.file [])) := rfl
  refine ⟨?_, ?_, ?_⟩
  · have hstores : twoBroken.Stores (Bytes.ofString "line") [Bytes.ofString "line"]
        (Bytes.ofString "b 3\nc 1\nb 1 2\na 1\nb 1\n") := ⟨by decide +kernel, by decide +kernel⟩
    have htext : Utf8.IsText (Bytes.ofString "b 3\nc 1\nb 1 2\na 1\nb 1\n") := by decide +kernel
    have hsorted : (textLines (Bytes.ofString "b 3\nc 1\nb 1 2\na 1\nb 1\n")).mergeSort Bytes.le
        = brokenLine :=
      (Bytes.eq_mergeSort_of_perm (by decide +kernel) (by decide +kernel)).symm
    have hrun : run Echo.reduce [] (Bytes.ofString "line") (Bytes.ofString "out") twoBroken
        = (.error (.badRecord (Bytes.ofString "line") (.malformed (Bytes.ofString "b 1 2"))), _) :=
      run_eq_error_of_sorted hstores htext hscratch hcreate hsorted (by decide +kernel)
    rcases (run_complete_groups hordinary hrun).2 _ _ hstores htext with
      ⟨e, he, -⟩ | ⟨place, log, bs, hstored, -, hcut⟩
    · simp at he
    · obtain rfl : bs = Bytes.ofString "a[1]/\n" :=
        Except.ok.inj (hstored.openFile_bind_read.symm.trans (by decide +kernel))
      exact ⟨_, place, log, hrun, hstored, hsorted ▸ hcut⟩
  · have hstores : twoBroken.Stores (Bytes.ofString "key") [Bytes.ofString "key"]
        (Bytes.ofString "c 1\n!b 1\n\ta 1\n") := ⟨by decide +kernel, by decide +kernel⟩
    have htext : Utf8.IsText (Bytes.ofString "c 1\n!b 1\n\ta 1\n") := by decide +kernel
    have hsorted : (textLines (Bytes.ofString "c 1\n!b 1\n\ta 1\n")).mergeSort Bytes.le
        = brokenKey :=
      (Bytes.eq_mergeSort_of_perm (by decide +kernel) (by decide +kernel)).symm
    have hrun : run Echo.reduce [] (Bytes.ofString "key") (Bytes.ofString "out") twoBroken
        = (.error (.workload (.stated "reduce b")), _) :=
      run_eq_error_of_sorted hstores htext hscratch hcreate hsorted (by decide +kernel)
    rcases (run_complete_groups hordinary hrun).2 _ _ hstores htext with
      ⟨e, he, -⟩ | ⟨place, log, bs, hstored, -, hcut⟩
    · simp at he
    · obtain rfl : bs = Bytes.ofString "\ta[1]/\n" :=
        Except.ok.inj (hstored.openFile_bind_read.symm.trans (by decide +kernel))
      exact ⟨_, place, log, hrun, hstored, hsorted ▸ hcut⟩
  · have hnone : twoBroken.openFile (Bytes.ofString "none") = .error .noEntry := by decide +kernel
    have hnothing : ∀ source contents, twoBroken.Stores (Bytes.ofString "none") source contents →
        ¬ Utf8.IsText contents := by
      intro source contents hstores
      exact absurd (hnone.symm.trans hstores.openFile) (by simp)
    rcases hrun : run Echo.reduce [] (Bytes.ofString "none") (Bytes.ofString "out") twoBroken with
      ⟨e | n, t'⟩
    · obtain rfl : t' = twoBroken := (run_complete_groups hordinary hrun).1 hnothing
      exact ⟨e, rfl⟩
    · rw [run, runThrough, hnone] at hrun
      simp at hrun

end MapReduce.ReduceTask
