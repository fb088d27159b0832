import MapReduce.Proofs.CompleteGroups
import MapReduce.Proofs.CountSum

/-!
# Sums that outgrow a count

The counts are 64 bits wide, and so is their sum. A reducer of counts refuses a value that is too
large, but it does not refuse a sum that is: adding up then faults, and takes the task with it. Short
of that no sum is wrong.
-/

namespace MapReduce

namespace ReduceTask

open Workload (AddUpTo Overflows Sums countLine)

variable {reduce : ReduceFunction} {aux : Bytes} {input output : Path} {t t' : FileTree}
  {writer writer' : BlockWriter} {given : Sorted} {lines : List Bytes} {records : List Record}
  {log log' : List ReduceCall} {contents key : Bytes} {e : WorkloadError}

/-! ### The records of a text -/

/-- The records of a text in the order of their lines, without the lines that are none. -/
def sortedRecords (contents : Bytes) : List Record :=
  recordsAmong ((textLines contents).mergeSort Bytes.le)

theorem isText_key_of_mem_sortedRecords (htext : Utf8.IsText contents) {r : Record}
    (hr : r ∈ sortedRecords contents) : Utf8.IsText r.key := by
  have hline : r.line ∈ (textLines contents).mergeSort Bytes.le :=
    (map_line_recordsAmong_sublist _).subset (List.mem_map_of_mem hr)
  exact isText_key_of_mem_textLines htext (legible_of_mem_recordsAmong r hr)
    (List.mem_mergeSort.mp hline)

theorem Reads.isText (h : Reads contents records) : Utf8.IsText contents := by
  obtain ⟨lines, hread, -⟩ := h.lines
  exact isText_of_readLines hread

theorem Reads.sortedRecords_eq (h : Reads contents records) : sortedRecords contents = records := by
  obtain ⟨lines, hread, hsorted⟩ := h.lines
  obtain rfl := Except.ok.inj (hread.symm.trans (readLines_of_isText h.isText))
  rw [sortedRecords, hsorted, recordsAmong_map_line h.legible]

theorem Reads.isText_key (h : Reads contents records) :
    ∀ key ∈ (records.map Record.key).dedup, Utf8.IsText key := by
  intro key hkey
  obtain ⟨r, hr, rfl⟩ := List.mem_map.mp (List.mem_dedup.mp hkey)
  rw [← h.sortedRecords_eq] at hr
  exact isText_key_of_mem_sortedRecords h.isText hr

/-! ### Which call failed -/

theorem exists_call_of_emitAllWith {gs : List (Bytes × List Bytes)}
    (hfail : emitAllWith reduce.logged aux writer log gs
      = ((.error (.workload e), writer'), log')) :
    ∃ call ∈ gs.map fun g => (⟨g.1, g.2⟩ : ReduceCall),
      reduce call.key call.values aux = .error e := by
  induction gs generalizing writer log with
  | nil => simp [emitAllWith] at hfail
  | cons g gs ih =>
      rw [emitAllWith, ReduceFunction.logged] at hfail
      cases hreduce : reduce g.1 g.2 aux with
      | error e' =>
          obtain rfl : e' = e := by simpa [hreduce] using congrArg (·.1.1) hfail
          exact ⟨⟨g.1, g.2⟩, List.mem_cons_self, hreduce⟩
      | ok result =>
          rcases hwrite : writer.write result with ⟨_ | _, writer₁⟩
          · simp [hreduce, hwrite] at hfail
          · simp only [hreduce, hwrite] at hfail
            obtain ⟨call, hcall, hrefused⟩ := ih hfail
            exact ⟨call, List.mem_cons_of_mem _ hcall, hrefused⟩

/-- The reduce function has failed on one of the groups that are complete. -/
theorem exists_call_of_emitEntriesWith {ending : Option TaskError}
    (hending : ending ≠ some (.workload e))
    (hfail : emitEntriesWith reduce.logged aux output 0 writer log (records.map Record.entry) ending
      = ((.error (.workload e), writer'), log')) :
    ∃ call ∈ if ending.isSome then (callsFor records).dropLast else callsFor records,
      reduce call.key call.values aux = .error e := by
  cases ending with
  | some ending =>
      rw [emitEntriesWith, ← groups_eq_groupRuns] at hfail
      split at hfail
      · exact absurd (congrArg some (by simpa using congrArg (·.1.1) hfail)) hending
      · next cause writer₁ log₁ hemit =>
          obtain rfl : cause = .workload e := by simpa using congrArg (·.1.1) hfail
          obtain ⟨call, hcall, hrefused⟩ := exists_call_of_emitAllWith hemit
          rw [List.map_dropLast, ← callsFor] at hcall
          exact ⟨call, hcall, hrefused⟩
  | none =>
      rw [emitEntriesWith, ← groups_eq_groupRuns] at hfail
      split at hfail
      · next cause writer₁ log₁ hemit =>
          obtain rfl : cause = .workload e := by simpa using congrArg (·.1.1) hfail
          exact exists_call_of_emitAllWith hemit
      · split at hfail <;> cases hfail

/-- A call for a group that is complete is one for a record and all values of its key. -/
theorem exists_record_of_call {later : List Record} (hordered : Ordered (records ++ later))
    {call : ReduceCall} (hcall : call ∈ callsFor records)
    (hcomplete : call ∈ (callsFor records).dropLast ∨ later = [])
    (hrefused : reduce call.key call.values aux = .error e) :
    ∃ r ∈ records ++ later,
      reduce r.key (valuesOf r.key ((records ++ later).map Record.entry)) aux = .error e := by
  have hvalues : call.values = valuesOf call.key ((records ++ later).map Record.entry) := by
    rcases hcomplete with hbefore | rfl
    · exact hordered.values_of_mem_dropLast hbefore
    · rw [List.append_nil] at hordered ⊢
      exact hordered.values_of_mem_callsFor hcall
  have hkey : call.key ∈ (records.map Record.key).dedup :=
    hordered.of_append.map_key_callsFor ▸ List.mem_map_of_mem hcall
  obtain ⟨r, hr, hkey⟩ := List.mem_map.mp (List.mem_dedup.mp hkey)
  rw [hvalues, ← hkey] at hrefused
  exact ⟨r, List.mem_append_left _ hr, hrefused⟩

/-- The reduce function has failed on all values that there are for a key, also when a line is no
record or the sorter breaks off. -/
theorem exists_record_of_emitSortedWith (hof : given.IsOf lines)
    (hfail : emitSortedWith reduce.logged aux input output writer given log
      = ((.error (.workload e), writer'), log')) :
    ∃ r ∈ recordsAmong (lines.mergeSort Bytes.le),
      reduce r.key (valuesOf r.key ((recordsAmong (lines.mergeSort Bytes.le)).map Record.entry)) aux
        = .error e := by
  obtain ⟨missing, hperm, hascend, hall⟩ := hof
  have hordered := ordered_recordsAmong hascend
  rw [emitSortedWith_eq] at hfail
  rw [← Bytes.eq_mergeSort_of_perm hperm hascend]
  have hending : ∀ bad, endingOf input bad given.failure ≠ some (.workload e) := by
    rintro (_ | bad)
    · cases given.failure <;> simp [endingOf]
    · simp [endingOf]
  obtain ⟨call, hcall, hrefused⟩ := exists_call_of_emitEntriesWith (hending _) hfail
  rcases records_or_malformed given.lines with
    ⟨records, hlines, hlegible⟩ | ⟨records, bad, after, e', hlines, hlegible, hbad⟩
  · rw [hlines, recordsAmong_map_line_append hlegible] at hordered ⊢
    rw [hlines, readRecords_eq_iff.mpr (Record.map_split_map_line hlegible)] at hcall
    cases hend : given.failure with
    | none =>
        obtain rfl := hall hend
        rw [hend] at hcall
        exact exists_record_of_call hordered hcall (.inr recordsAmong_nil) hrefused
    | some failure =>
        rw [hend] at hcall
        exact exists_record_of_call hordered ((List.dropLast_subset _) hcall) (.inl hcall) hrefused
  · rw [hlines, List.append_assoc, recordsAmong_map_line_append hlegible] at hordered ⊢
    rw [hlines, readRecords_of_malformed hlegible hbad] at hcall
    exact exists_record_of_call hordered ((List.dropLast_subset _) hcall) (.inl hcall) hrefused

/-- When a task ends in a failure of the reduce function, this has failed on a key of the input,
whichever sorter the task has used. -/
theorem exists_record_of_runThrough {sorter : Sorter}
    (hfail : runThrough sorter reduce aux input output t = (.error (.workload e), t')) :
    ∃ source contents, t.Stores input source contents ∧ Utf8.IsText contents
      ∧ ∃ r ∈ sortedRecords contents,
          reduce r.key (valuesOf r.key ((sortedRecords contents).map Record.entry)) aux
            = .error e := by
  rw [← fst_runThroughWith_logged sorter reduce aux input output t [], runThroughWith] at hfail
  cases hopen : t.openFile input with
  | error e => simp [hopen] at hfail
  | ok source =>
      cases hscratch : t.checkScratch (directoryOf output) with
      | error e => simp [hopen, hscratch] at hfail
      | ok _ =>
          cases hsort : sorter.sort (t.read source >>= readLines) with
          | error e => simp [hopen, hscratch, hsort] at hfail
          | ok given =>
              obtain ⟨lines, hlines, hof⟩ := Sorter.exists_isOf hsort
              obtain ⟨contents, hread, htext⟩ := bind_eq_ok.mp hlines
              have hcontents := isText_of_readLines htext
              obtain rfl := Except.ok.inj (htext.symm.trans (readLines_of_isText hcontents))
              cases hcreate : t.create output with
              | error e => simp [hopen, hscratch, hsort, hcreate] at hfail
              | ok created =>
                  obtain ⟨place, t₁⟩ := created
                  simp only [hopen, hscratch, hsort, hcreate] at hfail
                  rcases hemit : emitSortedWith reduce.logged aux input output
                    (.ofSink (t₁.sinkAt place)) given [] with ⟨⟨result, writer⟩, log⟩
                  rw [hemit] at hfail
                  obtain rfl : result = .error (.workload e) := (Prod.mk.inj hfail).1
                  exact ⟨source, contents, ⟨hopen, hread⟩, hcontents,
                    exists_record_of_emitSortedWith hof hemit⟩

theorem snd_callUpTo_eq_some_iff {due : List ReduceCall} :
    (callUpTo reduce aux due).2 = some e ↔ ∃ before failed after, due = before ++ failed :: after
      ∧ (∀ call ∈ before, ∃ result, reduce call.key call.values aux = .ok result)
      ∧ reduce failed.key failed.values aux = .error e := by
  induction due with
  | nil => simp [callUpTo]
  | cons call due ih =>
      rw [callUpTo]
      cases hcall : reduce call.key call.values aux with
      | error e' =>
          constructor
          · intro h
            obtain rfl := Option.some.inj h
            exact ⟨[], call, due, rfl, by simp, hcall⟩
          · rintro ⟨before, failed, after, hdue, hbefore, hfailed⟩
            rcases List.cons_eq_append_iff.mp hdue with ⟨rfl, hfirst⟩ | ⟨rest, rfl, -⟩
            · obtain ⟨rfl, -⟩ := List.cons.inj hfirst
              exact congrArg some (Except.error.inj (hcall.symm.trans hfailed))
            · obtain ⟨result, hresult⟩ := hbefore call List.mem_cons_self
              simp [hcall] at hresult
      | ok result =>
          dsimp only
          rw [ih]
          constructor
          · rintro ⟨before, failed, after, rfl, hbefore, hfailed⟩
            exact ⟨call :: before, failed, after, rfl,
              List.forall_mem_cons.mpr ⟨⟨result, hcall⟩, hbefore⟩, hfailed⟩
          · rintro ⟨before, failed, after, hdue, hbefore, hfailed⟩
            rcases List.cons_eq_append_iff.mp hdue with ⟨rfl, hfirst⟩ | ⟨rest, rfl, rfl⟩
            · obtain ⟨rfl, -⟩ := List.cons.inj hfirst
              simp [hcall] at hfailed
            · exact ⟨rest, failed, after, rfl, (List.forall_mem_cons.mp hbefore).2, hfailed⟩

/-! ### Tasks that add up -/

/-- The values that records have for a key are counts, with room for their sum. -/
def KeySum (records : List Record) (key : Bytes) (n : Nat) : Prop :=
  AddUpTo (valuesOf key (records.map Record.entry)) n ∧ n < countLimit

def KeyOverflows (records : List Record) (key : Bytes) : Prop :=
  Overflows (valuesOf key (records.map Record.entry))

variable {n : Nat} {source : Location} {fault : Fault} {cause : TaskError}

/-- What a task has written when it succeeds is right. -/
theorem keySum_of_run (hreduce : Sums reduce)
    (hok : run reduce aux input output t = (.ok n, t')) :
    ∃ source contents records place full results, t.Stores input source contents
      ∧ Reads contents records ∧ t'.resolve output = .ok place
      ∧ t'.Holds place full results.flatten
      ∧ List.Forall₂ (fun key line => ∃ n, KeySum records key n ∧ line = countLine key n)
          (records.map Record.key).dedup results := by
  obtain ⟨source, contents, records, results, place, full, hstores, hreads, hanswered, -, -,
    hresolve, hholds⟩ := exists_calls_of_runThrough_eq_ok hok
  refine ⟨source, contents, records, place, full, results, hstores, hreads, hresolve, hholds, ?_⟩
  rw [Answered, hreads.ordered.callsFor_eq, List.forall₂_map_left_iff] at hanswered
  have htexts : ∀ key ∈ (records.map Record.key).dedup, Utf8.IsText key := hreads.isText_key
  refine (List.forall₂_and_left _ _).mpr ⟨htexts, hanswered⟩ |>.imp ?_
  rintro key line ⟨hkey, hline⟩
  obtain ⟨n, hn, hroom, rfl⟩ := (hreduce.eq_ok_iff hkey).mp hline
  exact ⟨n, ⟨hn, hroom⟩, rfl⟩

/-- A task ends in a fault only because of a key with too large a sum. -/
theorem keyOverflows_of_run (hreduce : Sums reduce)
    (hfail : run reduce aux input output t = (.error cause, t')) (hfault : cause.fault? = some fault) :
    fault = .additionOverflow ∧ ∃ source contents, t.Stores input source contents
      ∧ Utf8.IsText contents ∧ ∃ key ∈ (sortedRecords contents).map Record.key,
          KeyOverflows (sortedRecords contents) key := by
  obtain rfl : cause = .workload (.fault fault) := by
    unfold TaskError.fault? at hfault
    split at hfault
    · rw [Option.some.inj hfault]
    · cases hfault
  obtain ⟨source, contents, hstores, htext, r, hr, hrefused⟩ := exists_record_of_runThrough hfail
  obtain ⟨rfl, hoverflows⟩ :=
    (hreduce.eq_fault_iff (isText_key_of_mem_sortedRecords htext hr)).mp hrefused
  exact ⟨rfl, source, contents, hstores, htext, r.key, List.mem_map_of_mem hr, hoverflows⟩

/-- On records, with files that can be used, it ends in a fault when such a key is the first without
a sum. -/
theorem fst_run_eq_overflow_iff (hreduce : Sums reduce) (hstores : t.Stores input source contents)
    (hreads : Reads contents records) (hscratch : t.checkScratch (directoryOf output) = .ok ())
    (hordinary : t.Ordinary output) :
    (run reduce aux input output t).1 = .error (.workload (.fault .additionOverflow))
      ↔ ∃ before key after, (records.map Record.key).dedup = before ++ key :: after
        ∧ (∀ k ∈ before, ∃ n, KeySum records k n) ∧ KeyOverflows records key := by
  obtain ⟨place, hplace, hnot⟩ := hordinary
  obtain ⟨t', hcalls⟩ : ∃ t', runWith reduce.logged aux input output t [] = ((_, t'), _) :=
    runWith_of_reads hstores hreads hscratch hplace hnot []
  have hrun := fst_runWith_logged reduce aux input output t []
  rw [hcalls] at hrun
  have hended : (run reduce aux input output t).1 = .error (.workload (.fault .additionOverflow))
      ↔ (callUpTo reduce aux (callsFor records)).2 = some (.fault .additionOverflow) := by
    rw [← hrun]
    cases (callUpTo reduce aux (callsFor records)).2 <;> simp [endedBy]
  rw [hended, snd_callUpTo_eq_some_iff, hreads.ordered.callsFor_eq]
  have htexts := hreads.isText_key
  constructor
  · rintro ⟨before, failed, after, hdue, hbefore, hfailed⟩
    obtain ⟨ks, rest, hkeys, rfl, hrest⟩ := List.map_eq_append_iff.mp hdue
    obtain ⟨key, later, rfl, rfl, -⟩ := List.map_eq_cons_iff.mp hrest
    rw [hkeys, List.forall_mem_append, List.forall_mem_cons] at htexts
    refine ⟨ks, key, later, hkeys, ?_, ((hreduce.eq_fault_iff htexts.2.1).mp hfailed).2⟩
    intro k hk
    obtain ⟨result, hresult⟩ := hbefore _ (List.mem_map_of_mem hk)
    obtain ⟨n, hn, hroom, -⟩ := (hreduce.eq_ok_iff (htexts.1 k hk)).mp hresult
    exact ⟨n, hn, hroom⟩
  · rintro ⟨ks, key, later, hkeys, hbefore, hoverflows⟩
    rw [hkeys, List.forall_mem_append, List.forall_mem_cons] at htexts
    refine ⟨_, _, _, by rw [hkeys, List.map_append, List.map_cons], ?_,
      (hreduce.eq_fault_iff htexts.2.1).mpr ⟨rfl, hoverflows⟩⟩
    intro call hcall
    obtain ⟨k, hk, rfl⟩ := List.mem_map.mp hcall
    obtain ⟨n, hn, hroom⟩ := hbefore k hk
    exact ⟨_, (hreduce.eq_ok_iff (htexts.1 k hk)).mpr ⟨n, hn, hroom, rfl⟩⟩

/-- **Exact or too large.** Given a key that is a text, the reduce function of either workload gives
the line of the key and the exact sum when the values are counts with room for their sum, and it
faults when the first values are counts without. So a task that succeeds has written the exact sum of
each key. One that ends in a fault has met a key whose values overflow, and it does end so when no
key before has been refused. -/
theorem run_exact_or_overflow {name : String} {w : Workload}
    (hname : Workload.named? name = some w) (aux : Bytes) :
    (∀ key values, Utf8.IsText key →
        (∀ line, w.reduce key values aux = .ok line
          ↔ ∃ n, AddUpTo values n ∧ n < countLimit ∧ line = countLine key n)
        ∧ ∀ fault, w.reduce key values aux = .error (.fault fault)
          ↔ fault = .additionOverflow ∧ Overflows values)
      ∧ ∀ (t : FileTree) (input output : Path),
          (∀ n t', run w.reduce aux input output t = (.ok n, t') →
            ∃ source contents records place full results, t.Stores input source contents
              ∧ Reads contents records ∧ t'.resolve output = .ok place
              ∧ t'.Holds place full results.flatten
              ∧ List.Forall₂ (fun key line => ∃ n, KeySum records key n ∧ line = countLine key n)
                  (records.map Record.key).dedup results)
          ∧ (∀ cause t' fault, run w.reduce aux input output t = (.error cause, t') →
              cause.fault? = some fault →
                fault = .additionOverflow ∧ ∃ source contents, t.Stores input source contents
                  ∧ Utf8.IsText contents ∧ ∃ key ∈ (sortedRecords contents).map Record.key,
                      KeyOverflows (sortedRecords contents) key)
          ∧ ∀ source contents records, t.Stores input source contents → Reads contents records →
              t.checkScratch (directoryOf output) = .ok () → t.Ordinary output →
                ((run w.reduce aux input output t).1
                    = .error (.workload (.fault .additionOverflow))
                  ↔ ∃ before key after, (records.map Record.key).dedup = before ++ key :: after
                    ∧ (∀ k ∈ before, ∃ n, KeySum records k n) ∧ KeyOverflows records key) := by
  have hreduce := Workload.sums_of_named? hname
  refine ⟨?_, ?_⟩
  · intro key values hkey
    exact ⟨fun line => hreduce.eq_ok_iff hkey, fun fault => hreduce.eq_fault_iff hkey⟩
  · intro t input output
    refine ⟨?_, ?_, ?_⟩
    · intro n t' hok
      exact keySum_of_run hreduce hok
    · intro cause t' fault hfail hfault
      exact keyOverflows_of_run hreduce hfail hfault
    · intro source contents records hstores hreads hscratch hordinary
      exact fst_run_eq_overflow_iff hreduce hstores hreads hscratch hordinary

/-- The values of one key come to one more than the largest count. -/
def tooMany : FileTree :=
  ⟨[], [([], .directory),
    ([Bytes.ofString "in"], .file (Bytes.ofString "b 18446744073709551615\na 7\nb 1\n"))]⟩

def tooManyRecords : List Record :=
  [⟨Bytes.ofString "a", Bytes.ofString "7"⟩, ⟨Bytes.ofString "b", Bytes.ofString "1"⟩,
    ⟨Bytes.ofString "b", Bytes.ofString "18446744073709551615"⟩]

theorem stores_tooMany : tooMany.Stores (Bytes.ofString "in") [Bytes.ofString "in"]
    (Bytes.ofString "b 18446744073709551615\na 7\nb 1\n") :=
  ⟨by decide +kernel, by decide +kernel⟩

theorem reads_tooMany :
    Reads (Bytes.ofString "b 18446744073709551615\na 7\nb 1\n") tooManyRecords :=
  Ordered.reads ⟨by decide +kernel, by decide +kernel⟩ (by decide +kernel) (by decide +kernel)

theorem addUpTo_tooMany :
    AddUpTo [Bytes.ofString "1", Bytes.ofString "18446744073709551615"] countLimit :=
  .cons (c := 1) (by decide +kernel) (.cons (c := countLimit - 1) (by decide +kernel) .nil)

theorem keyOverflows_tooMany :
    ∃ before key after, (tooManyRecords.map Record.key).dedup = before ++ key :: after
      ∧ (∀ k ∈ before, ∃ n, KeySum tooManyRecords k n) ∧ KeyOverflows tooManyRecords key := by
  refine ⟨[Bytes.ofString "a"], Bytes.ofString "b", [], by decide +kernel, ?_, ?_⟩
  · intro k hk
    obtain rfl := List.mem_singleton.mp hk
    exact ⟨7, .cons (c := 7) (by decide +kernel) .nil, by decide⟩
  · exact ⟨_, [], _, rfl, addUpTo_tooMany, le_rfl⟩

theorem run_exact_or_overflow_tooMany :
    VertexDegree.reduce (Bytes.ofString "b") [Bytes.ofString "1", Bytes.ofString "+02"] []
        = .ok (Bytes.ofString "b 3\n")
      ∧ (run VertexDegree.reduce [] (Bytes.ofString "in") (Bytes.ofString "out") tooMany).1
        = .error (.workload (.fault .additionOverflow)) := by
  have hname : Workload.named? "vertex-degree" = some VertexDegree.workload := rfl
  obtain ⟨hcall, htask⟩ := run_exact_or_overflow hname []
  constructor
  · refine ((hcall (Bytes.ofString "b") _ (by decide +kernel)).1 _).mpr ⟨3, ?_, by decide, ?_⟩
    · exact .cons (c := 1) (by decide +kernel) (.cons (c := 2) (by decide +kernel) .nil)
    · decide +kernel
  · exact ((htask tooMany _ _).2.2 _ _ _ stores_tooMany reads_tooMany (by decide +kernel)
      (by decide +kernel)).mpr keyOverflows_tooMany

/-- The largest count and one more are a fault for both workloads, by themselves and in a task. -/
theorem overflow_of_tooMany :
    WordCount.reduce (Bytes.ofString "b")
        [Bytes.ofString "18446744073709551615", Bytes.ofString "1"] []
        = .error (.fault .additionOverflow)
      ∧ VertexDegree.reduce (Bytes.ofString "b")
        [Bytes.ofString "18446744073709551615", Bytes.ofString "1"] []
        = .error (.fault .additionOverflow)
      ∧ (run WordCount.reduce [] (Bytes.ofString "in") (Bytes.ofString "out") tooMany).1
        = .error (.workload (.fault .additionOverflow))
      ∧ (run VertexDegree.reduce [] (Bytes.ofString "in") (Bytes.ofString "out") tooMany).1
        = .error (.workload (.fault .additionOverflow)) := by
  have hscratch : tooMany.checkScratch (directoryOf (Bytes.ofString "out")) = .ok () := by
    decide +kernel
  have hordinary : tooMany.Ordinary (Bytes.ofString "out") := by decide +kernel
  refine ⟨by decide +kernel, by decide +kernel, ?_, ?_⟩
  · exact (fst_run_eq_overflow_iff Workload.sums_wordCount stores_tooMany reads_tooMany hscratch
      hordinary).mpr keyOverflows_tooMany
  · exact (fst_run_eq_overflow_iff Workload.sums_vertexDegree stores_tooMany reads_tooMany hscratch
      hordinary).mpr keyOverflows_tooMany

end ReduceTask

end MapReduce
