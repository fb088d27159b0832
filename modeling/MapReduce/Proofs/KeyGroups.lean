import MapReduce.Proofs.ReduceTask
import MapReduce.Proofs.Tokens
import MapReduce.Workload.Echo

/-!
# Key groups

A reduce task sorts whole lines, and a space ends each key. So the lines of one key stand together
whatever keys there are, also when one key is the start of another, and the reduce function is
called once for each key. The calls depend on which lines the file has, not on their order.

The order of the calls is that of the keys with a space behind them. It is the order of the keys as
long as no key goes on from another with a byte below the space.
-/

namespace MapReduce

namespace ReduceTask

variable {records records' sorted : List Record} {calls calls' : List ReduceCall}
  {lines : List Bytes} {contents : Bytes}

/-! ### Calls that group records -/

/-- One call for each key, with all the values that the records have for it. -/
structure Grouped (records : List Record) (calls : List ReduceCall) : Prop where
  keys_perm : (calls.map ReduceCall.key).Perm (records.map Record.key).dedup
  keys_ascend : (calls.map ReduceCall.key).Pairwise fun k k' => Bytes.keyLe k k' = true
  values_perm : ∀ call ∈ calls, call.values.Perm (valuesOf call.key (records.map Record.entry))
  values_ascend : ∀ call ∈ calls, call.values.Pairwise fun v v' => Bytes.le v v' = true

instance (records : List Record) (calls : List ReduceCall) : Decidable (Grouped records calls) :=
  decidable_of_iff
    ((calls.map ReduceCall.key).Perm (records.map Record.key).dedup
      ∧ (calls.map ReduceCall.key).Pairwise (fun k k' => Bytes.keyLe k k' = true)
      ∧ (∀ call ∈ calls, call.values.Perm (valuesOf call.key (records.map Record.entry)))
      ∧ ∀ call ∈ calls, call.values.Pairwise fun v v' => Bytes.le v v' = true)
    ⟨fun ⟨hkeys, hascend, hvalues, hvaluesAscend⟩ => ⟨hkeys, hascend, hvalues, hvaluesAscend⟩,
      fun ⟨hkeys, hascend, hvalues, hvaluesAscend⟩ => ⟨hkeys, hascend, hvalues, hvaluesAscend⟩⟩

theorem Grouped.length_eq (h : Grouped records calls) :
    calls.length = (records.map Record.key).dedup.length := by
  rw [← h.keys_perm.length_eq, List.length_map]

theorem Grouped.lineAscending (h : Grouped records calls) :
    Bytes.LineAscending (calls.map ReduceCall.key) :=
  h.keys_ascend.and (h.keys_perm.nodup_iff.mpr (List.nodup_dedup _))

theorem Grouped.perm (h : Grouped records calls) (hperm : records.Perm records') :
    Grouped records' calls where
  keys_perm := h.keys_perm.trans (hperm.map Record.key).dedup
  keys_ascend := h.keys_ascend
  values_perm call hcall :=
    (h.values_perm call hcall).trans (valuesOf_perm call.key (hperm.map Record.entry))
  values_ascend := h.values_ascend

/-- The records fix the calls: which there are and what stands in them. -/
theorem Grouped.eq_map (h : Grouped records calls) :
    calls = ((records.map Record.key).dedup.mergeSort Bytes.keyLe).map fun k =>
      ⟨k, (valuesOf k (records.map Record.entry)).mergeSort Bytes.le⟩ := by
  have hkeys := Bytes.eq_mergeSort_keyLe_of_perm h.keys_perm h.keys_ascend
  have hcall : ∀ call ∈ calls,
      call = ⟨call.key, (valuesOf call.key (records.map Record.entry)).mergeSort Bytes.le⟩ := by
    intro call hcall
    rw [← Bytes.eq_mergeSort_of_perm (h.values_perm call hcall) (h.values_ascend call hcall)]
  calc calls = calls.map id := (List.map_id calls).symm
    _ = calls.map ((fun k => ⟨k, (valuesOf k (records.map Record.entry)).mergeSort Bytes.le⟩)
          ∘ ReduceCall.key) := List.map_congr_left hcall
    _ = (calls.map ReduceCall.key).map fun k =>
          ⟨k, (valuesOf k (records.map Record.entry)).mergeSort Bytes.le⟩ := List.map_map.symm
    _ = _ := by rw [hkeys]

theorem Grouped.unique (h : Grouped records calls) (h' : Grouped records calls') :
    calls = calls' :=
  h.eq_map.trans h'.eq_map.symm

theorem Ordered.grouped (h : Ordered sorted) : Grouped sorted (callsFor sorted) := by
  have hkeys := h.map_key_callsFor
  refine ⟨.of_eq hkeys, ?_, fun call hcall => .of_eq (h.values_of_mem_callsFor hcall), ?_⟩
  · rw [hkeys]
    exact h.pairwise_keys.sublist (List.dedup_sublist _)
  · intro call hcall
    rw [h.values_of_mem_callsFor hcall]
    exact h.pairwise_valuesOf call.key

/-! ### Text files of records -/

/-- The lines of a text file. A newline ends a line, with or without a carriage return before it,
and the last line may lack one. -/
def textLines (contents : Bytes) : List Bytes :=
  (Line.split Bytes.newline contents).map (Line.withoutReturn Bytes.carriageReturn)

theorem readLines_of_isText (h : Utf8.IsText contents) :
    readLines contents = .ok (textLines contents) := by
  obtain ⟨text, htext⟩ := Utf8.isText_iff_decode.mp h
  rw [readLines, htext]
  rfl

theorem withoutReturn_prefix (line : Line UInt8) :
    line.withoutReturn Bytes.carriageReturn <+: line.content := by
  rw [Line.withoutReturn]
  split
  · exact List.dropLast_prefix _
  · exact List.prefix_rfl

theorem newline_notMem_of_mem_textLines {line : Bytes} (h : line ∈ textLines contents) :
    Bytes.newline ∉ line := by
  obtain ⟨whole, hmem, rfl⟩ := List.mem_map.mp h
  intro hnewline
  exact Bytes.not_mem_of_mem_lines contents _ (List.mem_map_of_mem hmem)
    (Line.mem_of_mem_withoutReturn hnewline)

theorem isText_key_of_mem_textLines (htext : Utf8.IsText contents) {r : Record} (hr : r.Legible)
    (hline : r.line ∈ textLines contents) : Utf8.IsText r.key := by
  obtain ⟨line, hmem, hcontent⟩ := List.mem_map.mp hline
  obtain ⟨rest, hrest⟩ := withoutReturn_prefix line
  have hwhole := (Utf8.isText_iff_lines contents).mp htext _ (List.mem_map_of_mem hmem)
  rw [← hrest, hcontent, Record.line, List.append_assoc, List.cons_append,
    Utf8.isText_append_space hr.space_notMem_key] at hwhole
  exact hwhole.1

theorem Ordered.reads (h : Ordered sorted) (htext : Utf8.IsText contents)
    (hperm : (sorted.map Record.line).Perm (textLines contents)) : Reads contents sorted where
  lines := ⟨textLines contents, readLines_of_isText htext,
    (Bytes.eq_mergeSort_of_perm hperm h.ascending).symm⟩
  legible := h.legible

/-! ### Whole tasks -/

variable {reduce : ReduceFunction} {aux : Bytes} {t t' : FileTree} {input output : Path} {n : Nat}

/-- A reduce task that succeeds has called the reduce function for the groups of the sorted records
and has written the answers one after the other, whichever sorter it has used. -/
theorem exists_calls_of_runThrough_eq_ok {sorter : Sorter}
    (hok : runThrough sorter reduce aux input output t = (.ok n, t')) :
    ∃ source contents sorted results place full, t.Stores input source contents
      ∧ Reads contents sorted ∧ Answered reduce aux (callsFor sorted) results
      ∧ runThroughWith sorter reduce.logged aux input output t [] = ((.ok n, t'), callsFor sorted)
      ∧ n = (callsFor sorted).length
      ∧ t'.resolve output = .ok place ∧ t'.Holds place full results.flatten := by
  obtain ⟨source, contents, sorted, place, full, results, hstores, hreads, hn, hresolve, hresults,
    hholds, hrew, hcalls⟩ := exists_reads_of_runThrough_eq_ok [] hok
  refine ⟨source, contents, sorted, results, place, full, hstores, hreads,
    answered_callsFor_iff.mpr hresults, ?_, ?_, (hrew.resolve output place).mpr hresolve, hholds⟩
  · exact Prod.ext ((fst_runThroughWith_logged sorter reduce aux input output t []).trans hok) hcalls
  · rw [hn, length_callsFor]

/-- When the files are in order and the reduce function answers, a reduce task succeeds. -/
theorem run_of_answered {source : Location} {results : List Bytes}
    (hstores : t.Stores input source contents) (hreads : Reads contents sorted)
    (hscratch : t.checkScratch (directoryOf output) = .ok ()) (hordinary : t.Ordinary output)
    (hresults : Answered reduce aux (callsFor sorted) results) :
    ∃ t' place, run reduce aux input output t = (.ok (callsFor sorted).length, t')
      ∧ runWith reduce.logged aux input output t []
        = ((.ok (callsFor sorted).length, t'), callsFor sorted)
      ∧ t'.Stores output place results.flatten := by
  obtain ⟨place, hplace, hnot⟩ := hordinary
  obtain ⟨t', hcalls⟩ := runWith_of_reads hstores hreads hscratch hplace hnot []
  rw [callUpTo_of_answered hresults] at hcalls
  have hrun : run reduce aux input output t = (.ok (callsFor sorted).length, t') := by
    rw [← fst_runWith_logged reduce aux input output t [], hcalls]
    rfl
  obtain ⟨source', contents', sorted', results', place', full, hstores', hreads', hresults', -, -,
    hresolve, hholds⟩ := exists_calls_of_runThrough_eq_ok hrun
  obtain rfl := Except.ok.inj (hstores.openFile.symm.trans hstores'.openFile)
  obtain rfl := Except.ok.inj (hstores.read.symm.trans hstores'.read)
  obtain rfl := hreads'.unique hreads
  obtain rfl := hresults'.unique hresults
  exact ⟨t', place', hrun, hcalls, hholds.stores hresolve hplace.not_endsInSlash⟩

/-- **Grouping.** When the lines of a file are records, a reduce task calls the reduce function once
for each distinct key, with all the values of the key in ascending order, and the keys in the order
of their lines. It writes the results in this order and gives the number of keys. The order in which
the lines stand in the file makes no difference. -/
theorem run_grouped (reduce : ReduceFunction) (aux : Bytes)
    (hrecords : lines.map Record.split = records.map .ok)
    (hreduce : ∀ key ∈ records.map Record.key, ∀ values,
      values.Perm (valuesOf key (records.map Record.entry)) →
        ∃ result, reduce key values aux = .ok result) :
    ∃ calls results, Grouped records calls ∧ Answered reduce aux calls results
      ∧ ∀ (t : FileTree) (input output : Path) (source : Location) (contents : Bytes),
          t.Stores input source contents → Utf8.IsText contents →
          (textLines contents).Perm lines → t.checkScratch (directoryOf output) = .ok () →
          t.Ordinary output →
            ∃ t' place, run reduce aux input output t
                = (.ok (records.map Record.key).dedup.length, t')
              ∧ runWith reduce.logged aux input output t []
                = ((.ok (records.map Record.key).dedup.length, t'), calls)
              ∧ t'.Stores output place results.flatten := by
  obtain ⟨rfl, hlegible⟩ := Record.eq_map_line_of_map_split hrecords
  have hordered := ordered_mergeSort hlegible
  have hsorted := List.mergeSort_perm records lineLe
  have hgrouped : Grouped records (callsFor (records.mergeSort lineLe)) :=
    hordered.grouped.perm hsorted
  obtain ⟨results, hresults⟩ : ∃ results,
      Answered reduce aux (callsFor (records.mergeSort lineLe)) results := by
    apply exists_answered
    intro call hcall
    have hkey : call.key ∈ records.map Record.key :=
      List.mem_dedup.mp (hgrouped.keys_perm.mem_iff.mp (List.mem_map_of_mem hcall))
    exact hreduce call.key hkey call.values (hgrouped.values_perm call hcall)
  refine ⟨_, results, hgrouped, hresults, ?_⟩
  intro t input output source contents hstores htext hperm hscratch hordinary
  have hreads : Reads contents (records.mergeSort lineLe) :=
    hordered.reads htext ((hsorted.map Record.line).trans hperm.symm)
  rw [← hgrouped.length_eq]
  exact run_of_answered hstores hreads hscratch hordinary hresults

/-- Two files with the lines of the same records. In the one, a line ends in a carriage return and a
newline, and the last one in nothing. -/
def twoOrders : FileTree :=
  ⟨[], [([], .directory),
    ([Bytes.ofString "in"], .file (Bytes.ofString "a 2\r\nb 1\na\tb 3\na 1")),
    ([Bytes.ofString "other"], .file (Bytes.ofString "a 1\na 2\na\tb 3\nb 1\n"))]⟩

def twoOrdersRecords : List Record :=
  [⟨Bytes.ofString "a", Bytes.ofString "1"⟩, ⟨Bytes.ofString "a", Bytes.ofString "2"⟩,
    ⟨Bytes.ofString "a\tb", Bytes.ofString "3"⟩, ⟨Bytes.ofString "b", Bytes.ofString "1"⟩]

def twoOrdersCalls : List ReduceCall :=
  [⟨Bytes.ofString "a\tb", [Bytes.ofString "3"]⟩,
    ⟨Bytes.ofString "a", [Bytes.ofString "1", Bytes.ofString "2"]⟩,
    ⟨Bytes.ofString "b", [Bytes.ofString "1"]⟩]

theorem run_grouped_twoOrders :
    (∃ t' place, runWith Echo.reduce.logged [] (Bytes.ofString "in") (Bytes.ofString "out")
          twoOrders [] = ((.ok 3, t'), twoOrdersCalls)
        ∧ t'.Stores (Bytes.ofString "out") place
            (Bytes.ofString "a\tb[3]/\na[1][2]/\nb[1]/\n"))
      ∧ ∃ t' place, runWith Echo.reduce.logged [] (Bytes.ofString "other") (Bytes.ofString "out")
          twoOrders [] = ((.ok 3, t'), twoOrdersCalls)
        ∧ t'.Stores (Bytes.ofString "out") place
            (Bytes.ofString "a\tb[3]/\na[1][2]/\nb[1]/\n") := by
  have hlines : (twoOrdersRecords.map Record.line).map Record.split = twoOrdersRecords.map .ok := by
    decide +kernel
  have hbang : ∀ key ∈ twoOrdersRecords.map Record.key, key.head? ≠ some Echo.bang := by
    decide +kernel
  obtain ⟨calls, results, hgrouped, hresults, hrun⟩ := run_grouped Echo.reduce [] hlines
    fun key hkey values _ => ⟨_, if_neg (hbang key hkey)⟩
  obtain rfl : calls = twoOrdersCalls := hgrouped.unique (by decide +kernel)
  have hflatten : results.flatten = Bytes.ofString "a\tb[3]/\na[1][2]/\nb[1]/\n" := by
    have hechoed : Answered Echo.reduce [] twoOrdersCalls
        (["a\tb[3]/\n", "a[1][2]/\n", "b[1]/\n"].map Bytes.ofString) :=
      .cons (by decide +kernel) (.cons (by decide +kernel) (.cons (by decide +kernel) .nil))
    rw [hresults.unique hechoed]
    decide +kernel
  rw [← hflatten]
  constructor
  · obtain ⟨t', place, -, hcalls, hstores⟩ := hrun twoOrders (Bytes.ofString "in")
      (Bytes.ofString "out") [Bytes.ofString "in"] (Bytes.ofString "a 2\r\nb 1\na\tb 3\na 1")
      ⟨by decide +kernel, by decide +kernel⟩ (by decide +kernel) (by decide +kernel)
      (by decide +kernel) (by decide +kernel)
    exact ⟨t', place, hcalls, hstores⟩
  · obtain ⟨t', place, -, hcalls, hstores⟩ := hrun twoOrders (Bytes.ofString "other")
      (Bytes.ofString "out") [Bytes.ofString "other"] (Bytes.ofString "a 1\na 2\na\tb 3\nb 1\n")
      ⟨by decide +kernel, by decide +kernel⟩ (by decide +kernel) (by decide +kernel)
      (by decide +kernel) (by decide +kernel)
    exact ⟨t', place, hcalls, hstores⟩

/-- **Order of the keys.** Whenever a reduce task succeeds, it has called the reduce function for
keys in the order of their lines, each once, and has written the results in this order. That is the
order of the keys if and only if none of them undercuts another. -/
theorem run_keys_ordered (hok : run reduce aux input output t = (.ok n, t')) :
    ∃ calls results place full,
      runWith reduce.logged aux input output t [] = ((.ok n, t'), calls)
        ∧ calls.length = n
        ∧ Answered reduce aux calls results
        ∧ t'.resolve output = .ok place ∧ t'.Holds place full results.flatten
        ∧ Bytes.LineAscending (calls.map ReduceCall.key)
        ∧ (Bytes.Ascending (calls.map ReduceCall.key) ↔
            ∀ k ∈ calls.map ReduceCall.key, ∀ k' ∈ calls.map ReduceCall.key,
              ¬ Bytes.Undercuts k k') := by
  obtain ⟨source, contents, sorted, results, place, full, -, hreads, hresults, hcalls, hn, hresolve,
    hholds⟩ := exists_calls_of_runThrough_eq_ok hok
  have hkeys := hreads.ordered.grouped.lineAscending
  exact ⟨callsFor sorted, results, place, full, hcalls, hn.symm, hresults, hresolve, hholds, hkeys,
    hkeys.ascending_iff⟩

def tabbed : FileTree :=
  ⟨[], [([], .directory), ([Bytes.ofString "in"], .file (Bytes.ofString "a 1\na\tb 1\n"))]⟩

def tabbedRecords : List Record :=
  [⟨Bytes.ofString "a\tb", Bytes.ofString "1"⟩, ⟨Bytes.ofString "a", Bytes.ofString "1"⟩]

theorem run_tabbed :
    ∃ t' place, run Echo.reduce [] (Bytes.ofString "in") (Bytes.ofString "out") tabbed = (.ok 2, t')
      ∧ runWith Echo.reduce.logged [] (Bytes.ofString "in") (Bytes.ofString "out") tabbed []
        = ((.ok 2, t'), callsFor tabbedRecords)
      ∧ t'.Stores (Bytes.ofString "out") place (Bytes.ofString "a\tb[1]/\na[1]/\n") := by
  have hordered : Ordered tabbedRecords := ⟨by decide +kernel, by decide +kernel⟩
  have hreads : Reads (Bytes.ofString "a 1\na\tb 1\n") tabbedRecords :=
    hordered.reads (by decide +kernel) (by decide +kernel)
  have hstores : tabbed.Stores (Bytes.ofString "in") [Bytes.ofString "in"]
      (Bytes.ofString "a 1\na\tb 1\n") := ⟨by decide +kernel, by decide +kernel⟩
  have hresults : Answered Echo.reduce [] (callsFor tabbedRecords)
      [Bytes.ofString "a\tb[1]/\n", Bytes.ofString "a[1]/\n"] :=
    .cons (by decide +kernel) (.cons (by decide +kernel) .nil)
  have hflatten : [Bytes.ofString "a\tb[1]/\n", Bytes.ofString "a[1]/\n"].flatten
      = Bytes.ofString "a\tb[1]/\na[1]/\n" := by decide +kernel
  rw [← hflatten]
  exact run_of_answered hstores hreads (by decide +kernel) (by decide +kernel) hresults

theorem run_keys_ordered_tabbed :
    ∃ t', run Echo.reduce [] (Bytes.ofString "in") (Bytes.ofString "out") tabbed = (.ok 2, t')
      ∧ Bytes.LineAscending [Bytes.ofString "a\tb", Bytes.ofString "a"]
      ∧ ∃ k ∈ [Bytes.ofString "a\tb", Bytes.ofString "a"],
          ∃ k' ∈ [Bytes.ofString "a\tb", Bytes.ofString "a"], Bytes.Undercuts k k' := by
  obtain ⟨t', place, hrun, hcalls, hstores⟩ := run_tabbed
  obtain ⟨calls, results, place', full, hcalls', -, -, -, -, hkeys, hiff⟩ := run_keys_ordered hrun
  obtain rfl := (Prod.mk.inj (hcalls'.symm.trans hcalls)).2
  refine ⟨t', hrun, hkeys, ?_⟩
  by_contra hfree
  have hascending := hiff.mpr fun k hk k' hk' hundercuts => hfree ⟨k, hk, k', hk', hundercuts⟩
  exact absurd hascending (by decide +kernel)

/-- The keys of sorted lines need not be in order, since a tab is below the space. -/
theorem keys_out_of_order :
    ∃ t' place calls,
      run Echo.reduce [] (Bytes.ofString "in") (Bytes.ofString "out") tabbed = (.ok 2, t')
        ∧ runWith Echo.reduce.logged [] (Bytes.ofString "in") (Bytes.ofString "out") tabbed []
          = ((.ok 2, t'), calls)
        ∧ calls.map ReduceCall.key = [Bytes.ofString "a\tb", Bytes.ofString "a"]
        ∧ ¬ Bytes.Ascending (calls.map ReduceCall.key)
        ∧ t'.Stores (Bytes.ofString "out") place (Bytes.ofString "a\tb[1]/\na[1]/\n") := by
  obtain ⟨t', place, hrun, hcalls, hstores⟩ := run_tabbed
  exact ⟨t', place, _, hrun, hcalls, rfl, by decide +kernel, hstores⟩

end ReduceTask

end MapReduce
