import MapReduce.Proofs.CountSum
import MapReduce.Proofs.KeyGroups

/-!
# Reducing in parts

What a reducer of counts writes is again a file of counts. Reducing two files apart, then what came
of them together, gives what reducing them together gives: the totals add up, and the keys of the
second pass are those of the first, so they come in the same order.
-/

namespace MapReduce

open scoped List

namespace ReduceTask

open Workload (AddUpTo Sums decodeCount encodeCount countLine)

variable {contents contents' : Bytes} {records records' : List Record} {key aux : Bytes}
  {reduce : ReduceFunction}

/-! ### Totals -/

/-- The count that a value is, and nothing for one that is none. -/
def countValue (value : Bytes) : Nat :=
  (decodeCount value).toOption.getD 0

/-- What the values of a key come to, however large. -/
def total (key : Bytes) (records : List Record) : Nat :=
  ((valuesOf key (records.map Record.entry)).map countValue).sum

theorem countValue_of_ok {value : Bytes} {n : Nat} (h : decodeCount value = .ok n) :
    countValue value = n := by
  rw [countValue, h]
  rfl

theorem addUpTo_sum {values : List Bytes} (h : ∀ value ∈ values, ∃ n, decodeCount value = .ok n) :
    AddUpTo values (values.map countValue).sum := by
  induction values with
  | nil => exact .nil
  | cons value values ih =>
      obtain ⟨⟨n, hvalue⟩, hvalues⟩ := List.forall_mem_cons.mp h
      rw [List.map_cons, List.sum_cons, countValue_of_ok hvalue]
      exact .cons hvalue (ih hvalues)

theorem total_append (key : Bytes) (records records' : List Record) :
    total key (records ++ records') = total key records + total key records' := by
  simp only [total, List.map_append, valuesOf_append, List.sum_append]

theorem total_perm (key : Bytes) (h : records ~ records') : total key records = total key records' :=
  ((valuesOf_perm key (h.map Record.entry)).map countValue).sum_nat

theorem total_of_notMem (h : key ∉ records.map Record.key) : total key records = 0 := by
  have hentries : key ∉ (records.map Record.entry).map Prod.fst := by
    rwa [List.map_map]
  rw [total, valuesOf_of_notMem hentries, List.map_nil, List.sum_nil]

/-! ### Aggregated records -/

/-- One record for each key, with its total, in the order in which a reducer writes them. -/
def aggregated (records : List Record) : List Record :=
  ((records.map Record.key).dedup.mergeSort Bytes.keyLe).map fun k =>
    ⟨k, encodeCount (total k records)⟩

/-- What a reducer of counts writes for the records of a file. -/
def totals (records : List Record) : Bytes :=
  Record.fileOf (aggregated records)

theorem aggregated_perm (records : List Record) :
    aggregated records
      ~ (records.map Record.key).dedup.map fun k => ⟨k, encodeCount (total k records)⟩ :=
  (List.mergeSort_perm _ _).map _

theorem mem_keys_aggregated :
    key ∈ (aggregated records).map Record.key ↔ key ∈ records.map Record.key := by
  rw [((aggregated_perm records).map Record.key).mem_iff, List.map_map]
  simp [Function.comp_def]

theorem mem_aggregated {r : Record} (h : r ∈ aggregated records) :
    r.key ∈ records.map Record.key ∧ r.value = encodeCount (total r.key records) := by
  refine ⟨mem_keys_aggregated.mp (List.mem_map_of_mem h), ?_⟩
  obtain ⟨k, -, rfl⟩ := List.mem_map.mp h
  rfl

theorem aggregated_of_sorted {keys : List Bytes} (hperm : keys ~ (records.map Record.key).dedup)
    (hsorted : keys.Pairwise fun k k' => Bytes.keyLe k k' = true) :
    aggregated records = keys.map fun k => ⟨k, encodeCount (total k records)⟩ := by
  rw [aggregated, ← Bytes.eq_mergeSort_keyLe_of_perm hperm hsorted]

theorem totals_of_sorted {keys : List Bytes} (hperm : keys ~ (records.map Record.key).dedup)
    (hsorted : keys.Pairwise fun k k' => Bytes.keyLe k k' = true) :
    totals records = keys.flatMap fun k => countLine k (total k records) := by
  rw [totals, aggregated_of_sorted hperm hsorted, Record.fileOf, List.flatMap_map]
  rfl

/-- The keys and their totals are all that matters. -/
theorem aggregated_congr (hkeys : ∀ k, k ∈ records.map Record.key ↔ k ∈ records'.map Record.key)
    (htotal : ∀ k, total k records = total k records') : aggregated records = aggregated records' := by
  have hdedup : (records.map Record.key).dedup ~ (records'.map Record.key).dedup := by
    rw [List.perm_ext_iff_of_nodup (List.nodup_dedup _) (List.nodup_dedup _)]
    intro k
    rw [List.mem_dedup, List.mem_dedup, hkeys]
  rw [aggregated_of_sorted ((List.mergeSort_perm _ _).trans hdedup.symm)
    (Bytes.pairwise_mergeSort_keyLe _), aggregated]
  exact List.map_congr_left fun k _ => by rw [htotal]

/-- A total that is written down is read again as what it was. -/
theorem total_aggregated (hroom : total key records < countLimit) :
    total key (aggregated records) = total key records := by
  by_cases hkey : key ∈ records.map Record.key
  · have hfilter : (fun e : Bytes × Bytes => decide (e.1 = key)) ∘ Record.entry
        ∘ (fun k : Bytes => (⟨k, encodeCount (total k records)⟩ : Record))
          = fun k => decide (k = key) := rfl
    rw [total_perm key (aggregated_perm records), total, List.map_map, valuesOf, List.filter_map,
      hfilter, filter_dedup_eq, if_pos hkey]
    simpa [Record.entry] using countValue_of_ok (Workload.decodeCount_encodeCount hroom)
  · rw [total_of_notMem hkey, total_of_notMem (mt mem_keys_aggregated.mp hkey)]

/-- **Parts.** Aggregating in parts first makes no difference. -/
theorem totals_append_aggregated (hroom : ∀ k, total k records < countLimit)
    (hroom' : ∀ k, total k records' < countLimit) :
    totals (aggregated records ++ aggregated records') = totals (records ++ records') := by
  refine congrArg Record.fileOf (aggregated_congr ?_ ?_)
  · intro k
    simp only [List.map_append, List.mem_append, mem_keys_aggregated]
  · intro k
    rw [total_append, total_append, total_aggregated (hroom k), total_aggregated (hroom' k)]

theorem totals_aggregated (hroom : ∀ k, total k records < countLimit) :
    totals (aggregated records) = totals records :=
  congrArg Record.fileOf
    (aggregated_congr (fun _ => mem_keys_aggregated) fun k => total_aggregated (hroom k))

/-! ### Files of counts -/

theorem split_append_newline (bs cs : Bytes) :
    Line.split Bytes.newline (bs ++ Bytes.newline :: cs)
      = Line.split Bytes.newline (bs ++ [Bytes.newline]) ++ Line.split Bytes.newline cs := by
  induction bs using Line.induction_on Bytes.newline with
  | hlast a ha =>
      rw [Line.split_append_newline ha, Line.split_append_newline ha]
      rfl
  | hline a b ha ih =>
      rw [List.append_assoc, List.cons_append, Line.split_append_newline ha, ih, List.append_assoc,
        List.cons_append, Line.split_append_newline ha, List.cons_append]

/-- A text file of lines that all end in a newline, and that a reduce task reads as records of
counts. -/
structure CountFile (contents : Bytes) (records : List Record) : Prop where
  isText : Utf8.IsText contents
  terminated : contents = [] ∨ contents.getLast? = some Bytes.newline
  lines : (textLines contents).map Record.split = records.map .ok
  counts : ∀ r ∈ records, ∃ n, decodeCount r.value = .ok n

namespace CountFile

theorem append (h : CountFile contents records) (h' : CountFile contents' records') :
    CountFile (contents ++ contents') (records ++ records') where
  isText := by
    obtain ⟨text, htext⟩ := h.isText
    obtain ⟨text', htext'⟩ := h'.isText
    exact ⟨text ++ text', by rw [Utf8.encode_append, htext, htext']⟩
  terminated := by
    rcases h'.terminated with rfl | hlast
    · rw [List.append_nil]
      exact h.terminated
    · rw [List.getLast?_append, hlast]
      exact .inr rfl
  lines := by
    have hlines : textLines (contents ++ contents') = textLines contents ++ textLines contents' := by
      rcases h.terminated with rfl | hlast
      · rfl
      · obtain ⟨bs, rfl⟩ := List.getLast?_eq_some_iff.mp hlast
        rw [textLines, List.append_assoc, List.singleton_append, split_append_newline,
          List.map_append]
        rfl
    rw [hlines, List.map_append, h.lines, h'.lines, List.map_append]
  counts := List.forall_mem_append.mpr ⟨h.counts, h'.counts⟩

variable (h : CountFile contents records)

include h

theorem lines_eq : textLines contents = records.map Record.line :=
  (Record.eq_map_line_of_map_split h.lines).1

theorem writable : ∀ r ∈ records, r.Writable := by
  intro r hr
  have hlegible := (Record.eq_map_line_of_map_split h.lines).2 r hr
  have hline : r.line ∈ textLines contents := h.lines_eq ▸ List.mem_map_of_mem hr
  refine ⟨hlegible, fun hkey => newline_notMem_of_mem_textLines hline ?_⟩
  exact List.mem_append_left _ hkey

theorem isToken_key (hkey : key ∈ records.map Record.key) : WordCount.IsToken key := by
  obtain ⟨r, hr, rfl⟩ := List.mem_map.mp hkey
  have hwritable := h.writable r hr
  exact ⟨isText_key_of_mem_textLines h.isText hwritable.toLegible
      (h.lines_eq ▸ List.mem_map_of_mem hr),
    hwritable.key_ne_nil, hwritable.space_notMem_key, hwritable.newline_notMem_key⟩

theorem addUpTo_total (key : Bytes) :
    AddUpTo (valuesOf key (records.map Record.entry)) (total key records) := by
  apply addUpTo_sum
  intro value hvalue
  obtain ⟨e, he, rfl⟩ := List.mem_map.mp hvalue
  obtain ⟨r, hr, rfl⟩ := List.mem_map.mp (List.mem_filter.mp he).1
  exact h.counts r hr

theorem writable_of_mem_aggregated : ∀ r ∈ aggregated records, r.Writable := by
  intro r hr
  obtain ⟨hkey, hvalue⟩ := mem_aggregated hr
  exact Record.writable_of_isToken (h.isToken_key hkey) hvalue

theorem isText_line_of_mem_aggregated : ∀ r ∈ aggregated records, Utf8.IsText r.line := by
  intro r hr
  obtain ⟨hkey, hvalue⟩ := mem_aggregated hr
  exact Record.isText_line_of_isToken (h.isToken_key hkey) hvalue

theorem textLines_totals : textLines (totals records) = (aggregated records).map Record.line := by
  have htext := Record.isText_fileOf h.writable_of_mem_aggregated h.isText_line_of_mem_aggregated
  obtain ⟨text, hdecode⟩ := Utf8.isText_iff_decode.mp htext
  have hread := readLines_fileOf h.writable_of_mem_aggregated hdecode
  have hreturn : (aggregated records).map Record.withoutReturn = aggregated records := by
    rw [List.map_congr_left fun r hr => Record.withoutReturn_of_encodeCount (mem_aggregated hr).2]
    exact List.map_id' _
  rw [hreturn, readLines_of_isText htext] at hread
  exact Except.ok.inj hread

/-- What a reducer writes for a file of counts is again one. -/
theorem totals (hroom : ∀ k, total k records < countLimit) :
    CountFile (ReduceTask.totals records) (aggregated records) where
  isText := Record.isText_fileOf h.writable_of_mem_aggregated h.isText_line_of_mem_aggregated
  terminated := by
    rcases List.eq_nil_or_concat (aggregated records) with hnil | ⟨rs, r, hconcat⟩
    · exact .inl (by rw [ReduceTask.totals, hnil]; rfl)
    · refine .inr ?_
      rw [ReduceTask.totals, hconcat, Record.fileOf_eq, List.concat_eq_append, List.map_append,
        List.flatMap_append]
      simp [Bytes.terminate]
  lines := by
    rw [h.textLines_totals]
    exact Record.map_split_map_line fun r hr => (h.writable_of_mem_aggregated r hr).toLegible
  counts r hr := by
    rw [(mem_aggregated hr).2]
    exact ⟨_, Workload.decodeCount_encodeCount (hroom r.key)⟩

end CountFile

/-! ### Whole tasks -/

/-- Wherever these are the contents of the input and the output can be written, a reduce task
succeeds and leaves the result in the output. -/
def ReducesTo (reduce : ReduceFunction) (aux contents result : Bytes) : Prop :=
  ∀ (t : FileTree) (input output : Path) (source : Location), t.Stores input source contents →
    t.checkScratch (directoryOf output) = .ok () → t.Ordinary output →
      ∃ n t' place, run reduce aux input output t = (.ok n, t') ∧ t'.Stores output place result

/-- A reducer of counts writes the totals. -/
theorem CountFile.reducesTo (h : CountFile contents records) (hreduce : Sums reduce) (aux : Bytes)
    (hroom : ∀ k, total k records < countLimit) :
    ReducesTo reduce aux contents (ReduceTask.totals records) := by
  have hanswer : ∀ key ∈ records.map Record.key, ∀ values,
      values ~ valuesOf key (records.map Record.entry) →
        reduce key values aux = .ok (countLine key (total key records)) := by
    intro key hkey values hvalues
    rw [hreduce.eq_ok_iff (h.isToken_key hkey).isText]
    exact ⟨_, (h.addUpTo_total key).perm hvalues.symm, hroom key, rfl⟩
  obtain ⟨calls, results, hgrouped, hanswered, hrun⟩ := run_grouped reduce aux h.lines
    fun key hkey values hvalues => ⟨_, hanswer key hkey values hvalues⟩
  have hresults : results.flatten = ReduceTask.totals records := by
    have hlines : Answered reduce aux calls
        (calls.map fun call => countLine call.key (total call.key records)) := by
      rw [Answered, List.forall₂_map_right_iff, List.forall₂_same]
      intro call hcall
      have hkey : call.key ∈ records.map Record.key :=
        List.mem_dedup.mp (hgrouped.keys_perm.mem_iff.mp (List.mem_map_of_mem hcall))
      exact hanswer call.key hkey call.values (hgrouped.values_perm call hcall)
    rw [hanswered.unique hlines, totals_of_sorted hgrouped.keys_perm hgrouped.keys_ascend,
      List.flatMap_map, List.flatMap_def]
  intro t input output source hstores hscratch hordinary
  obtain ⟨t', place, hok, -, hresult⟩ :=
    hrun t input output source contents hstores h.isText (.refl _) hscratch hordinary
  exact ⟨_, t', place, hok, hresults ▸ hresult⟩

/-- **Reducing in parts.** With either workload, a task writes the totals of the keys. Given what two
other tasks have written for two files of counts it writes what a task on both files writes, as long
as no key has too large a total in them, and given what a task has written it writes the same again. -/
theorem reducesTo_parts {name : String} {w : Workload} (hname : Workload.named? name = some w)
    (aux : Bytes) {first second : Bytes} {firstRecords secondRecords : List Record}
    (hfirst : CountFile first firstRecords) (hsecond : CountFile second secondRecords)
    (hroom : ∀ key n,
      AddUpTo (valuesOf key ((firstRecords ++ secondRecords).map Record.entry)) n → n < countLimit) :
    ReducesTo w.reduce aux first (totals firstRecords)
      ∧ ReducesTo w.reduce aux second (totals secondRecords)
      ∧ ReducesTo w.reduce aux (first ++ second) (totals (firstRecords ++ secondRecords))
      ∧ ReducesTo w.reduce aux (totals firstRecords ++ totals secondRecords)
          (totals (firstRecords ++ secondRecords))
      ∧ ReducesTo w.reduce aux (totals firstRecords) (totals firstRecords)
      ∧ ReducesTo w.reduce aux (totals (firstRecords ++ secondRecords))
          (totals (firstRecords ++ secondRecords)) := by
  have hreduce := Workload.sums_of_named? hname
  have hboth := hfirst.append hsecond
  have hroomBoth : ∀ k, total k (firstRecords ++ secondRecords) < countLimit :=
    fun k => hroom k _ (hboth.addUpTo_total k)
  have hroomFirst : ∀ k, total k firstRecords < countLimit := fun k =>
    Nat.lt_of_le_of_lt (total_append k _ _ ▸ Nat.le_add_right _ _) (hroomBoth k)
  have hroomSecond : ∀ k, total k secondRecords < countLimit := fun k =>
    Nat.lt_of_le_of_lt (total_append k _ _ ▸ Nat.le_add_left _ _) (hroomBoth k)
  have hresult := hfirst.totals hroomFirst
  have hresults := hresult.append (hsecond.totals hroomSecond)
  -- The totals of the results are those of the files they are the results of.
  have hroomResult : ∀ k, total k (aggregated firstRecords) < countLimit := fun k =>
    (total_aggregated (hroomFirst k)).trans_lt (hroomFirst k)
  have hroomWhole : ∀ k, total k (aggregated (firstRecords ++ secondRecords)) < countLimit := fun k =>
    (total_aggregated (hroomBoth k)).trans_lt (hroomBoth k)
  have hroomResults : ∀ k,
      total k (aggregated firstRecords ++ aggregated secondRecords) < countLimit := by
    intro k
    rw [total_append, total_aggregated (hroomFirst k), total_aggregated (hroomSecond k),
      ← total_append]
    exact hroomBoth k
  refine ⟨hfirst.reducesTo hreduce aux hroomFirst, hsecond.reducesTo hreduce aux hroomSecond,
    hboth.reducesTo hreduce aux hroomBoth, ?_, ?_, ?_⟩
  · rw [← totals_append_aggregated hroomFirst hroomSecond]
    exact hresults.reducesTo hreduce aux hroomResults
  · have hagain := hresult.reducesTo hreduce aux hroomResult
    rwa [totals_aggregated hroomFirst] at hagain
  · have hagain := (hboth.totals hroomBoth).reducesTo hreduce aux hroomWhole
    rwa [totals_aggregated hroomBoth] at hagain

/-- One key goes on from another with a tab, and counts stand in more than one spelling. -/
def partBytes : Bytes :=
  Bytes.ofString "a 2\na\tb +01\na 007\n"

def otherPartBytes : Bytes :=
  Bytes.ofString "b 4\na 18446744073709551606\n"

def twoParts : FileTree :=
  ⟨[], [([], .directory), ([Bytes.ofString "part"], .file partBytes),
    ([Bytes.ofString "other"], .file otherPartBytes),
    ([Bytes.ofString "both"], .file (partBytes ++ otherPartBytes))]⟩

def partRecords : List Record :=
  [⟨Bytes.ofString "a", Bytes.ofString "2"⟩, ⟨Bytes.ofString "a\tb", Bytes.ofString "+01"⟩,
    ⟨Bytes.ofString "a", Bytes.ofString "007"⟩]

def otherPartRecords : List Record :=
  [⟨Bytes.ofString "b", Bytes.ofString "4"⟩,
    ⟨Bytes.ofString "a", Bytes.ofString "18446744073709551606"⟩]

theorem countFile_part : CountFile partBytes partRecords where
  isText := by decide +kernel
  terminated := by decide +kernel
  lines := by decide +kernel
  counts r hr := by
    simp only [partRecords, List.mem_cons, List.not_mem_nil, or_false] at hr
    rcases hr with rfl | rfl | rfl
    · exact ⟨2, by decide +kernel⟩
    · exact ⟨1, by decide +kernel⟩
    · exact ⟨7, by decide +kernel⟩

theorem countFile_otherPart : CountFile otherPartBytes otherPartRecords where
  isText := by decide +kernel
  terminated := by decide +kernel
  lines := by decide +kernel
  counts r hr := by
    simp only [otherPartRecords, List.mem_cons, List.not_mem_nil, or_false] at hr
    rcases hr with rfl | rfl
    · exact ⟨4, by decide +kernel⟩
    · exact ⟨18446744073709551606, by decide +kernel⟩

theorem total_parts_lt (key : Bytes) : total key (partRecords ++ otherPartRecords) < countLimit := by
  by_cases hkey : key ∈ (partRecords ++ otherPartRecords).map Record.key
  · have hall : ∀ k ∈ (partRecords ++ otherPartRecords).map Record.key,
        total k (partRecords ++ otherPartRecords) < countLimit := by decide +kernel
    exact hall key hkey
  · rw [total_of_notMem hkey]
    decide

theorem reducesTo_parts_twoParts :
    (∃ n t' place, run VertexDegree.reduce [] (Bytes.ofString "part") (Bytes.ofString "out")
          twoParts = (.ok n, t')
        ∧ t'.Stores (Bytes.ofString "out") place (Bytes.ofString "a\tb 1\na 9\n"))
      ∧ (∃ n t' place, run VertexDegree.reduce [] (Bytes.ofString "other") (Bytes.ofString "out")
          twoParts = (.ok n, t')
        ∧ t'.Stores (Bytes.ofString "out") place
            (Bytes.ofString "a 18446744073709551606\nb 4\n"))
      ∧ (∃ n t' place, run VertexDegree.reduce [] (Bytes.ofString "both") (Bytes.ofString "out")
          twoParts = (.ok n, t')
        ∧ t'.Stores (Bytes.ofString "out") place
            (Bytes.ofString "a\tb 1\na 18446744073709551615\nb 4\n"))
      ∧ ReducesTo VertexDegree.reduce []
          (Bytes.ofString "a\tb 1\na 9\na 18446744073709551606\nb 4\n")
          (Bytes.ofString "a\tb 1\na 18446744073709551615\nb 4\n") := by
  have hname : Workload.named? "vertex-degree" = some VertexDegree.workload := rfl
  have hboth := countFile_part.append countFile_otherPart
  obtain ⟨hpart, hother, hwhole, hagain, -, -⟩ :=
    reducesTo_parts hname [] countFile_part countFile_otherPart
      fun key n hn => (hn.unique (hboth.addUpTo_total key)).trans_lt (total_parts_lt key)
  have hpartTotals : totals partRecords = Bytes.ofString "a\tb 1\na 9\n" := by
    rw [@totals_of_sorted partRecords (["a\tb", "a"].map Bytes.ofString) (by decide +kernel)
      (by decide +kernel)]
    decide +kernel
  have hotherTotals : totals otherPartRecords
      = Bytes.ofString "a 18446744073709551606\nb 4\n" := by
    rw [@totals_of_sorted otherPartRecords (["a", "b"].map Bytes.ofString) (by decide +kernel)
      (by decide +kernel)]
    decide +kernel
  have hwholeTotals : totals (partRecords ++ otherPartRecords)
      = Bytes.ofString "a\tb 1\na 18446744073709551615\nb 4\n" := by
    rw [@totals_of_sorted (partRecords ++ otherPartRecords) (["a\tb", "a", "b"].map Bytes.ofString)
      (by decide +kernel) (by decide +kernel)]
    decide +kernel
  rw [hpartTotals] at hpart hagain
  rw [hotherTotals] at hother hagain
  rw [hwholeTotals] at hwhole hagain
  have hscratch : twoParts.checkScratch (directoryOf (Bytes.ofString "out")) = .ok () := by
    decide +kernel
  have hordinary : twoParts.Ordinary (Bytes.ofString "out") := by decide +kernel
  refine ⟨?_, ?_, ?_, hagain⟩
  · exact hpart _ _ _ [Bytes.ofString "part"] ⟨by decide +kernel, by decide +kernel⟩ hscratch
      hordinary
  · exact hother _ _ _ [Bytes.ofString "other"] ⟨by decide +kernel, by decide +kernel⟩ hscratch
      hordinary
  · exact hwhole _ _ _ [Bytes.ofString "both"] ⟨by decide +kernel, by decide +kernel⟩ hscratch
      hordinary

end ReduceTask

end MapReduce
