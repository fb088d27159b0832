import Mathlib.Algebra.Ring.Nat
import Mathlib.Data.List.Perm.Basic
import MapReduce.Proofs.CountSum
import MapReduce.Proofs.ReduceTask
import MapReduce.Proofs.Shard
import MapReduce.Proofs.Shuffle
import MapReduce.Proofs.Tokens
import MapReduce.Workload.WordCount

/-!
# Counting words

Each shard is mapped to its own counts. The counts of one word meet in the partition that owns the
word, in whatever order they are read back, and there they add up to the count of the word in all
shards together.
-/

namespace MapReduce

theorem Workload.decodeText_of_not_isText {contents : Bytes} (h : ¬ Utf8.IsText contents) :
    ∃ e, Workload.decodeText contents = .error e := by
  rw [Utf8.isText_iff_decode] at h
  rw [Workload.decodeText]
  cases hdecode : Utf8.decode contents with
  | error fault => exact ⟨.notUtf8 fault, rfl⟩
  | ok text => exact absurd ⟨text, hdecode⟩ h

namespace WordCount

open scoped List
open Workload (AddUpTo Sums encodeCount countLine)

/-! ### The tally -/

section Tally

variable {word w : Bytes} {counts : List (Bytes × Nat)} {ws ws' : List Bytes}

theorem mem_keys_countWord :
    w ∈ (countWord word counts).map Prod.fst ↔ w = word ∨ w ∈ counts.map Prod.fst := by
  induction counts with
  | nil => simp [countWord]
  | cons entry rest ih =>
      rw [countWord]
      split
      · next hsame => simp [hsame]
      · split
        · simp
        · rw [List.map_cons, List.mem_cons, ih, List.map_cons, List.mem_cons]
          exact or_left_comm

theorem ascending_countWord (h : Bytes.Ascending (counts.map Prod.fst)) :
    Bytes.Ascending ((countWord word counts).map Prod.fst) := by
  induction counts with
  | nil => exact List.pairwise_singleton _ _
  | cons entry rest ih =>
      rw [countWord]
      split
      · next hsame =>
          rw [List.map_cons, ← hsame]
          exact h
      · next hother =>
          split
          · next hle => exact h.cons hle hother
          · next hnot =>
              obtain ⟨hbefore, hrest⟩ := List.pairwise_cons.mp h
              refine List.pairwise_cons.mpr ⟨?_, ih hrest⟩
              intro w hw
              rcases mem_keys_countWord.mp hw with rfl | hw
              · exact ⟨(Bytes.le_total _ _).resolve_right hnot, hother⟩
              · exact hbefore w hw

/-- A word more is counted with those like it, if there are any, and changes no other count. -/
theorem mem_countWord (h : Bytes.Ascending (counts.map Prod.fst)) {entry : Bytes × Nat}
    (hentry : entry ∈ countWord word counts) :
    (entry ∈ counts ∧ entry.1 ≠ word) ∨ (∃ n, (word, n) ∈ counts ∧ entry = (word, n + 1))
      ∨ word ∉ counts.map Prod.fst ∧ entry = (word, 1) := by
  induction counts with
  | nil => exact .inr (.inr ⟨by simp, List.mem_singleton.mp hentry⟩)
  | cons first rest ih =>
      obtain ⟨hbefore, hrest⟩ := List.pairwise_cons.mp h
      rw [countWord] at hentry
      split at hentry
      · next hsame =>
          obtain ⟨key, n⟩ := first
          obtain rfl : key = word := hsame
          rcases List.mem_cons.mp hentry with rfl | hentry
          · exact .inr (.inl ⟨n, List.mem_cons_self, rfl⟩)
          · exact .inl ⟨List.mem_cons_of_mem _ hentry,
              (hbefore _ (List.mem_map_of_mem hentry)).2.symm⟩
      · next hother =>
          split at hentry
          · next hle =>
              obtain ⟨hbelow, -⟩ := List.pairwise_cons.mp (h.cons hle hother)
              rcases List.mem_cons.mp hentry with rfl | hentry
              · exact .inr (.inr ⟨fun hmem => (hbelow _ hmem).2 rfl, rfl⟩)
              · exact .inl ⟨hentry, (hbelow _ (List.mem_map_of_mem hentry)).2.symm⟩
          · rcases List.mem_cons.mp hentry with rfl | hentry
            · exact .inl ⟨List.mem_cons_self, hother⟩
            · rcases ih hrest hentry with ⟨hmem, hne⟩ | ⟨n, hmem, heq⟩ | ⟨hnone, heq⟩
              · exact .inl ⟨List.mem_cons_of_mem _ hmem, hne⟩
              · exact .inr (.inl ⟨n, List.mem_cons_of_mem _ hmem, heq⟩)
              · refine .inr (.inr ⟨?_, heq⟩)
                rw [List.map_cons, List.mem_cons, not_or]
                exact ⟨Ne.symm hother, hnone⟩

/-- The counts of these words. -/
structure Counted (ws : List Bytes) (counts : List (Bytes × Nat)) : Prop where
  ascending : Bytes.Ascending (counts.map Prod.fst)
  mem_keys (w : Bytes) : w ∈ counts.map Prod.fst ↔ w ∈ ws
  count : ∀ entry ∈ counts, entry.2 = ws.count entry.1

theorem counted_nil : Counted [] [] where
  ascending := List.Pairwise.nil
  mem_keys _ := Iff.rfl
  count _ h := absurd h List.not_mem_nil

/-- **One word.** -/
theorem Counted.countWord (h : Counted ws counts) (word : Bytes) :
    Counted (ws ++ [word]) (countWord word counts) where
  ascending := ascending_countWord h.ascending
  mem_keys w := by
    rw [mem_keys_countWord, h.mem_keys, List.mem_append, List.mem_singleton, or_comm]
  count := by
    intro entry hentry
    rcases mem_countWord h.ascending hentry with ⟨hmem, hne⟩ | ⟨n, hmem, rfl⟩ | ⟨hnone, rfl⟩
    · rw [h.count entry hmem, List.count_append, List.count_singleton, beq_false_of_ne hne.symm]
      rfl
    · have hcount : n = ws.count word := h.count _ hmem
      rw [List.count_append, List.count_singleton_self, hcount]
    · rw [h.mem_keys] at hnone
      rw [List.count_append, List.count_singleton_self, List.count_eq_zero_of_not_mem hnone]

theorem Counted.foldl (h : Counted ws counts) (ws' : List Bytes) :
    Counted (ws ++ ws') (ws'.foldl (fun counts word => WordCount.countWord word counts) counts) := by
  induction ws' generalizing ws counts with
  | nil => rwa [List.append_nil]
  | cons word ws' ih =>
      rw [List.append_cons]
      exact ih (h.countWord word)

/-- **All words.** -/
theorem counted_tally (ws : List Bytes) : Counted ws (tally ws) :=
  counted_nil.foldl ws

theorem tally_eq (ws : List Bytes) :
    tally ws = (ws.mergeSort Bytes.le).dedup.map fun w => (w, ws.count w) := by
  have h := counted_tally ws
  have hsorted := Bytes.pairwise_mergeSort ws
  have hkeys : (tally ws).map Prod.fst = (ws.mergeSort Bytes.le).dedup := by
    have hperm : (tally ws).map Prod.fst ~ (ws.mergeSort Bytes.le).dedup := by
      rw [List.perm_ext_iff_of_nodup (h.ascending.imp And.right) (List.nodup_dedup _)]
      intro w
      rw [h.mem_keys, List.mem_dedup, (List.mergeSort_perm ws _).mem_iff]
    exact hperm.eq_of_pairwise (fun _ _ _ _ => Bytes.le_antisymm) (h.ascending.imp And.left)
      (hsorted.sublist (List.dedup_sublist _))
  have hentries : tally ws = (tally ws).map fun entry => (entry.1, ws.count entry.1) := by
    conv_lhs => rw [← List.map_id (tally ws)]
    exact List.map_congr_left fun entry hentry => Prod.ext rfl (h.count entry hentry)
  rw [hentries, ← hkeys, List.map_map]
  rfl

end Tally

/-! ### Mapping -/

def recordsOf (ws : List Bytes) : List Record :=
  (tally ws).map fun entry => ⟨entry.1, encodeCount entry.2⟩

theorem recordsOf_eq (ws : List Bytes) :
    recordsOf ws = (ws.mergeSort Bytes.le).dedup.map fun w => ⟨w, encodeCount (ws.count w)⟩ := by
  rw [recordsOf, tally_eq, List.map_map]
  rfl

theorem map_of_text (key aux : Bytes) (text : List Char) :
    map ⟨key, Utf8.encode text⟩ aux = .ok ((recordsOf (tokens text)).map .ok) := by
  simp only [map, Workload.decodeText, Utf8.decode_encode, recordsOf, List.map_map]
  rfl

theorem map_of_not_isText (key aux : Bytes) {contents : Bytes} (h : ¬ Utf8.IsText contents) :
    ∃ e, map ⟨key, contents⟩ aux = .error e := by
  obtain ⟨e, hdecode⟩ := Workload.decodeText_of_not_isText h
  exact ⟨e, by simp only [map, hdecode, bind, Except.bind]⟩

theorem mem_of_mem_recordsOf {ws : List Bytes} {r : Record} (h : r ∈ recordsOf ws) :
    r.key ∈ ws ∧ ∃ n, r.value = encodeCount n := by
  rw [recordsOf_eq] at h
  obtain ⟨w, hw, rfl⟩ := List.mem_map.mp h
  exact ⟨(List.mergeSort_perm ws _).mem_iff.mp (List.mem_dedup.mp hw), _, rfl⟩

theorem writable_of_mem_recordsOf {ws : List Bytes} (hws : ∀ w ∈ ws, IsToken w) {r : Record}
    (h : r ∈ recordsOf ws) : r.Writable := by
  obtain ⟨hkey, n, hvalue⟩ := mem_of_mem_recordsOf h
  exact Record.writable_of_isToken (hws _ hkey) hvalue

/-! ### The values of a word -/

theorem valuesOf_recordsOf (w : Bytes) (ws : List Bytes) :
    valuesOf w ((recordsOf ws).map Record.entry)
      = if w ∈ ws then [encodeCount (ws.count w)] else [] := by
  have hfilter : (fun e : Bytes × Bytes => decide (e.1 = w)) ∘ Record.entry
      ∘ (fun w : Bytes => (⟨w, encodeCount (ws.count w)⟩ : Record)) = fun k => decide (k = w) := rfl
  rw [recordsOf_eq, List.map_map, valuesOf, List.filter_map, hfilter, filter_dedup_eq]
  simp only [(List.mergeSort_perm ws Bytes.le).mem_iff]
  split <;> rfl

/-! ### The lines of a partition -/

/-- The lines that partition `i` of `n` comes to for these words: one for each distinct word that it
owns, in the order of the words with a space behind them. -/
def partitionLines (hash : Bytes → Nat) (n i : Nat) (ws : List Bytes) : List Bytes :=
  ((ws.dedup.filter fun w => hash w % n = i).mergeSort Bytes.keyLe).map fun w =>
    countLine w (ws.count w)

theorem partitionLines_eq_of_perm (hash : Bytes → Nat) (n i : Nat) {ws ws' : List Bytes}
    (h : ws.Perm ws') : partitionLines hash n i ws = partitionLines hash n i ws' := by
  have hwords : (ws.dedup.filter fun w => hash w % n = i).mergeSort Bytes.keyLe
      ~ ws'.dedup.filter fun w => hash w % n = i :=
    calc (ws.dedup.filter fun w => hash w % n = i).mergeSort Bytes.keyLe
        ~ ws.dedup.filter fun w => hash w % n = i := List.mergeSort_perm _ _
      _ ~ ws'.dedup.filter fun w => hash w % n = i := h.dedup.filter _
  have hsorted := Bytes.eq_mergeSort_keyLe_of_perm hwords (Bytes.pairwise_mergeSort_keyLe _)
  rw [partitionLines, partitionLines, hsorted]
  exact List.map_congr_left fun w _ => by rw [h.count_eq]

/-- The lines of all partitions are those of all words, whatever the number of partitions is. -/
theorem flatMap_partitionLines_perm (hash : Bytes → Nat) {n : Nat} (hn : 0 < n) (ws : List Bytes) :
    ((List.range n).flatMap fun i => partitionLines hash n i ws).Perm
      (ws.dedup.map fun w => countLine w (ws.count w)) := by
  have hwords : ((List.range n).flatMap fun i => ws.dedup.filter fun w => hash w % n = i).Perm
      ws.dedup := flatMap_filter_perm (fun w => hash w % n) ws.dedup fun w _ => Nat.mod_lt _ hn
  calc (List.range n).flatMap (fun i => partitionLines hash n i ws)
      ~ (List.range n).flatMap fun i => (ws.dedup.filter fun w => hash w % n = i).map fun w =>
          countLine w (ws.count w) :=
        List.Perm.flatMap_left _ fun i _ => (List.mergeSort_perm _ _).map _
    _ = ((List.range n).flatMap fun i => ws.dedup.filter fun w => hash w % n = i).map fun w =>
          countLine w (ws.count w) := List.map_flatMap.symm
    _ ~ ws.dedup.map fun w => countLine w (ws.count w) := hwords.map _

/-! ### Records that count -/

/-- The values are counts, and those of a word add up to how often it is among the words. -/
structure Counts (ws : List Bytes) (records : List Record) : Prop where
  writable : ∀ r ∈ records, r.Writable
  isText : ∀ w ∈ ws, Utf8.IsText w
  mem_keys_iff : ∀ w, w ∈ records.map Record.key ↔ w ∈ ws
  values : ∀ w, ∃ cs : List Nat,
    valuesOf w (records.map Record.entry) = cs.map encodeCount ∧ cs.sum = ws.count w

namespace Counts

variable {ws ws' : List Bytes} {records records' : List Record} {r : Record}

theorem nil : Counts [] [] where
  writable := by simp
  isText := by simp
  mem_keys_iff := by simp
  values _ := ⟨[], rfl, rfl⟩

theorem append (h : Counts ws records) (h' : Counts ws' records') :
    Counts (ws ++ ws') (records ++ records') where
  writable r hr := (List.mem_append.mp hr).elim (h.writable r) (h'.writable r)
  isText w hw := (List.mem_append.mp hw).elim (h.isText w) (h'.isText w)
  mem_keys_iff w := by
    rw [List.map_append, List.mem_append, List.mem_append, h.mem_keys_iff, h'.mem_keys_iff]
  values w := by
    obtain ⟨cs, hvalues, hsum⟩ := h.values w
    obtain ⟨cs', hvalues', hsum'⟩ := h'.values w
    refine ⟨cs ++ cs', ?_, ?_⟩
    · rw [List.map_append, valuesOf_append, hvalues, hvalues', List.map_append]
    · rw [List.sum_append, hsum, hsum', List.count_append]

theorem flatMap {words : Nat → List Bytes} {emitted : Nat → List Record}
    (h : ∀ i, Counts (words i) (emitted i)) (is : List Nat) :
    Counts (is.flatMap words) (is.flatMap emitted) := by
  induction is with
  | nil => exact nil
  | cons i is ih => exact (h i).append ih

theorem exists_value (h : Counts ws records) (hr : r ∈ records) : ∃ c, r.value = encodeCount c := by
  obtain ⟨cs, hvalues, -⟩ := h.values r.key
  have hmem : r.value ∈ valuesOf r.key (records.map Record.entry) := by
    simp only [valuesOf, List.mem_map, List.mem_filter]
    exact ⟨r.entry, ⟨⟨r, hr, rfl⟩, by simp [Record.entry]⟩, rfl⟩
  rw [hvalues] at hmem
  obtain ⟨c, -, hc⟩ := List.mem_map.mp hmem
  exact ⟨c, hc.symm⟩

theorem isToken_key (h : Counts ws records) (hr : r ∈ records) : IsToken r.key where
  isText := h.isText r.key ((h.mem_keys_iff _).mp (List.mem_map_of_mem hr))
  ne_nil := (h.writable r hr).key_ne_nil
  space_notMem := (h.writable r hr).space_notMem_key
  newline_notMem := (h.writable r hr).newline_notMem_key

theorem isText_line (h : Counts ws records) (hr : r ∈ records) : Utf8.IsText r.line := by
  obtain ⟨c, hvalue⟩ := h.exists_value hr
  exact Record.isText_line_of_isToken (h.isToken_key hr) hvalue

variable {hash : Bytes → Nat} {n i : Nat}

theorem writable_owned (h : Counts ws records) : ∀ r ∈ Shuffle.owned hash n i records, r.Writable :=
  fun r hr => h.writable r (List.mem_filter.mp hr).1

theorem isText_fileOf_owned (h : Counts ws records) :
    Utf8.IsText (Record.fileOf (Shuffle.owned hash n i records)) :=
  Record.isText_fileOf h.writable_owned fun _ hr => h.isText_line (List.mem_filter.mp hr).1

theorem keys_arranged_eq (h : Counts ws records) :
    ((ReduceTask.arranged (Shuffle.owned hash n i records)).map Record.key).dedup
      = (ws.dedup.filter fun w => hash w % n = i).mergeSort Bytes.keyLe := by
  apply Bytes.eq_mergeSort_keyLe_of_perm _
    ((ReduceTask.pairwise_keys_arranged h.writable_owned).sublist (List.dedup_sublist _))
  rw [List.perm_ext_iff_of_nodup (List.nodup_dedup _) ((List.nodup_dedup _).filter _)]
  intro w
  rw [List.mem_dedup, (ReduceTask.keys_arranged_perm _).mem_iff, Shuffle.mem_keys_owned_iff,
    h.mem_keys_iff, List.mem_filter, List.mem_dedup, decide_eq_true_iff]

/-- The counts of a word as its partition reads them still add up to its count. -/
theorem addUpTo_owned (h : Counts ws records) {w : Bytes} (hw : hash w % n = i)
    (hroom : ws.count w < countLimit) :
    AddUpTo (valuesOf w ((ReduceTask.arranged (Shuffle.owned hash n i records)).map Record.entry))
      (ws.count w) := by
  obtain ⟨cs, hvalues, hsum⟩ := h.values w
  have hperm : (valuesOf w ((ReduceTask.arranged (Shuffle.owned hash n i records)).map
      Record.entry)).Perm (cs.map encodeCount) := by
    rw [← hvalues, ← Shuffle.valuesOf_owned hw records]
    apply ReduceTask.valuesOf_arranged_perm
    intro r hr _
    obtain ⟨c, hvalue⟩ := h.exists_value (List.mem_filter.mp hr).1
    exact Record.withoutReturn_of_encodeCount hvalue
  rw [← hsum] at hroom ⊢
  exact (Workload.addUpTo_encodeCount hroom).perm hperm.symm

theorem reduced_owned (h : Counts ws records) {f : ReduceFunction} (hf : Sums f) (aux : Bytes)
    (hroom : ws.length < countLimit) :
    ReduceTask.Reduced f aux
      (ReduceTask.groups (ReduceTask.arranged (Shuffle.owned hash n i records)))
      (partitionLines hash n i ws) := by
  rw [(ReduceTask.ordered_arranged h.writable_owned).groups_eq, h.keys_arranged_eq, partitionLines,
    ReduceTask.Reduced, List.forall₂_map_left_iff, List.forall₂_map_right_iff, List.forall₂_same]
  intro w hw
  obtain ⟨hword, hpartition⟩ := List.mem_filter.mp ((List.mergeSort_perm _ _).mem_iff.mp hw)
  have hcount : ws.count w < countLimit := List.count_le_length.trans_lt hroom
  rw [hf.eq_ok_iff (h.isText w (List.mem_dedup.mp hword))]
  exact ⟨_, h.addUpTo_owned (of_decide_eq_true hpartition) hcount, hcount, rfl⟩

end Counts

theorem counts_recordsOf {ws : List Bytes} (hws : ∀ w ∈ ws, IsToken w) :
    Counts ws (recordsOf ws) where
  writable _ hr := writable_of_mem_recordsOf hws hr
  isText w hw := (hws w hw).isText
  mem_keys_iff w := by simp [recordsOf_eq, (List.mergeSort_perm _ _).mem_iff]
  values w := by
    by_cases hw : w ∈ ws
    · exact ⟨[ws.count w], by simp [valuesOf_recordsOf, hw], by simp⟩
    · exact ⟨[], by simp [valuesOf_recordsOf, hw], by simp [List.count_eq_zero_of_not_mem hw]⟩

/-! ### Sharding a text -/

variable {n i : Nat} {contents : Bytes}

def shard (n i : Nat) (contents : Bytes) : Bytes :=
  (Shard.dealt n i (Bytes.lines contents)).flatMap Bytes.terminate

def shardTokens (n i : Nat) (contents : Bytes) : List Bytes :=
  (Shard.dealt n i (Bytes.lines contents)).flatMap tokensOfLine

theorem lines_shard (n i : Nat) (contents : Bytes) :
    Bytes.lines (shard n i contents) = Shard.dealt n i (Bytes.lines contents) :=
  Bytes.lines_flatMap_terminate fun l hl =>
    Bytes.not_mem_of_mem_lines contents l (Shard.mem_of_mem_dealt hl)

/-- Dealing out the lines of a text splits no word, and every word of it gets to some shard. -/
theorem flatMap_shardTokens_perm (hn : 0 < n) (text : List Char) :
    ((List.range n).flatMap fun i => shardTokens n i (Utf8.encode text)).Perm (tokens text) := by
  calc (List.range n).flatMap (fun i => shardTokens n i (Utf8.encode text))
      = ((List.range n).flatMap fun i =>
          Shard.dealt n i (Bytes.lines (Utf8.encode text))).flatMap tokensOfLine := by
        rw [List.flatMap_assoc]
        rfl
    _ ~ (Bytes.lines (Utf8.encode text)).flatMap tokensOfLine :=
        (Shard.flatMap_dealt_perm hn _).flatMap_right _
    _ = tokens text := (tokens_eq text).symm

theorem isText_shard (h : Utf8.IsText contents) (n i : Nat) : Utf8.IsText (shard n i contents) := by
  rw [Utf8.isText_iff_lines, lines_shard]
  exact fun l hl => (Utf8.isText_iff_lines contents).mp h l (Shard.mem_of_mem_dealt hl)

/-- If the whole is no text, some shard is none. -/
theorem exists_shard_not_isText (hn : 0 < n) (h : ¬ Utf8.IsText contents) :
    ∃ i < n, ¬ Utf8.IsText (shard n i contents) := by
  rw [Utf8.isText_iff_lines] at h
  push Not at h
  obtain ⟨l, hl, hnot⟩ := h
  have hmem := (Shard.flatMap_dealt_perm hn (Bytes.lines contents)).mem_iff.mpr hl
  obtain ⟨i, hi, hdealt⟩ := List.mem_flatMap.mp hmem
  refine ⟨i, List.mem_range.mp hi, fun htext => hnot ?_⟩
  rw [Utf8.isText_iff_lines, lines_shard] at htext
  exact htext l hdealt

theorem map_shard (h : Utf8.IsText contents) (n i : Nat) (key aux : Bytes) :
    map ⟨key, shard n i contents⟩ aux = .ok ((recordsOf (shardTokens n i contents)).map .ok) := by
  obtain ⟨text, htext⟩ := isText_shard h n i
  have htokens : tokens text = shardTokens n i contents := by
    rw [tokens_eq, htext, lines_shard]
    rfl
  rw [← htext, map_of_text, htokens]

theorem isToken_of_mem_shardTokens {w : Bytes} (hw : w ∈ shardTokens n i contents) : IsToken w := by
  obtain ⟨l, -, hw⟩ := List.mem_flatMap.mp hw
  exact isToken_of_mem_tokens hw

/-! ### Counting shard by shard -/

/-- On each shard of these bytes, a map function emits records that count words. -/
structure CountsShards (map : MapFunction) (aux : Bytes) (n : Nat) (contents : Bytes)
    (words : Nat → List Bytes) (emitted : Nat → List Record) : Prop where
  maps : ∀ i key, map ⟨key, shard n i contents⟩ aux = .ok ((emitted i).map .ok)
  counts : ∀ i, Counts (words i) (emitted i)

def FailsShard (map : MapFunction) (aux : Bytes) (n : Nat) (contents : Bytes) : Prop :=
  ∃ i < n, ∀ key, ∃ e, map ⟨key, shard n i contents⟩ aux = .error e

theorem countsShards_of_isText (h : Utf8.IsText contents) (aux : Bytes) (n : Nat) :
    CountsShards map aux n contents (fun i => shardTokens n i contents)
      fun i => recordsOf (shardTokens n i contents) where
  maps i key := map_shard h n i key aux
  counts _ := counts_recordsOf fun _ hw => isToken_of_mem_shardTokens hw

theorem failsShard_of_not_isText (hn : 0 < n) (h : ¬ Utf8.IsText contents) (aux : Bytes) :
    FailsShard map aux n contents := by
  obtain ⟨i, hi, hshard⟩ := exists_shard_not_isText hn h
  exact ⟨i, hi, fun key => map_of_not_isText key aux hshard⟩

end WordCount

end MapReduce
