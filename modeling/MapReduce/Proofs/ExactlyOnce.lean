import MapReduce.Partition
import MapReduce.Proofs.Handover
import MapReduce.Proofs.Shares
import MapReduce.Workload.Echo

/-!
# Exactly once

The files between the phases carry each emitted record from the map function to the reduce function:
encoded and written, read back and routed, sorted, decoded and grouped. What arrives is plain
grouping by key over all that was emitted, whatever the keys and values are and however the hash
spreads them.
-/

namespace MapReduce

open FileTree (Touched)

/-- A call of the reduce function, made for a partition. -/
structure PartitionCall where
  partition : Nat
  call : ReduceCall
  deriving DecidableEq, Repr

namespace ReduceTask

/-- Reduces files one after the other, the first of them for partition `i`, and puts the calls of
the reduce function down. -/
def runEachLogged (reduce : ReduceFunction) (aux : Bytes) (t : FileTree) (i : Nat) :
    List (Path × Path) → List (Except TaskError Nat) × FileTree × List PartitionCall
  | [] => ([], t, [])
  | (input, output) :: files =>
    let ((result, t), calls) := runWith reduce.logged aux input output t []
    let (results, t, later) := runEachLogged reduce aux t (i + 1) files
    (result :: results, t, calls.map (⟨i, ·⟩) ++ later)

variable {reduce : ReduceFunction} {aux : Bytes} {t t' : FileTree} {i : Nat}

theorem runEachLogged_eq (runner : TaskRunner) (t : FileTree) (i : Nat) (inputs outputs : List Path) :
    let logged := runEachLogged runner.workload.reduce runner.aux t i (inputs.zip outputs)
    (logged.1, logged.2.1) = runner.runEach t (tasksOf .reduce inputs outputs) := by
  induction inputs generalizing t i outputs with
  | nil => rfl
  | cons input inputs ih =>
      cases outputs with
      | nil => rfl
      | cons output outputs =>
          rw [tasksOf_cons, TaskRunner.runEach, List.zip_cons_cons, runEachLogged]
          have hone := fst_runWith_logged runner.workload.reduce runner.aux input output t []
          have hrun : runner.run ⟨.reduce, input, output⟩ t
              = run runner.workload.reduce runner.aux input output t := rfl
          rcases hlog : runWith runner.workload.reduce.logged runner.aux input output t [] with
            ⟨⟨result, t₁⟩, calls⟩
          rw [hlog] at hone
          rw [hrun, ← hone]
          simp only [← ih t₁ (i + 1) outputs]

theorem runEachLogged_eq_ok {inputs outputs : List Path} {shards : List (List Record)}
    {results : List (Except TaskError Nat)} {calls : List PartitionCall}
    (hlength : inputs.length = outputs.length) (hapart : t.Apart inputs outputs)
    (hinputs : List.Forall₂ (MapTask.Written t) inputs shards)
    (hrun : runEachLogged reduce aux t i (inputs.zip outputs) = (results, t', calls))
    (hok : AllOk results) :
    calls = (shards.zipIdx i).flatMap fun shard =>
      (callsFor (arranged shard.1)).map (⟨shard.2, ·⟩) := by
  induction inputs generalizing outputs shards t i results calls with
  | nil =>
      obtain rfl := List.forall₂_nil_left_iff.mp hinputs
      exact (Prod.mk.inj (Prod.mk.inj hrun).2).2.symm
  | cons input inputs ih =>
      obtain ⟨output, outputs, rfl⟩ := List.exists_cons_of_length_eq_add_one hlength.symm
      obtain ⟨records, shards, hinput, hrest, rfl⟩ := List.forall₂_cons_left_iff.mp hinputs
      obtain ⟨⟨source, hstores⟩, hrecords⟩ := hinput
      rw [List.zip_cons_cons, runEachLogged] at hrun
      have hfst := fst_runWith_logged reduce aux input output t []
      rcases hone : runWith reduce.logged aux input output t [] with ⟨⟨result, t₁⟩, log⟩
      rcases hmore : runEachLogged reduce aux t₁ (i + 1) (inputs.zip outputs) with
        ⟨results, t₂, later⟩
      rw [hone] at hfst
      simp only [hone, hmore, Prod.mk.injEq] at hrun
      obtain ⟨rfl, rfl, rfl⟩ := hrun
      obtain ⟨⟨n, rfl⟩, hokRest⟩ := allOk_cons_iff.mp hok
      obtain ⟨place, full, done, hresolve, -, -, hrew, hlog⟩ :=
        run_eq_ok [] hstores.openFile hstores.read hrecords hfst.symm
      rw [hone, List.nil_append] at hlog
      have htouched := Touched.of_resolve hresolve hrew
      have hwritten : List.Forall₂ (MapTask.Written t₁) inputs shards := by
        refine ((List.forall₂_and_left _ _).mpr ⟨hapart.separate_head, hrest⟩).imp ?_
        rintro j rs ⟨hseparate, hwritten⟩
        exact hwritten.touched htouched hseparate
      rw [ih (by simpa using hlength) (hapart.tail.touched htouched) hwritten hmore hokRest,
        List.zipIdx_cons, List.flatMap_cons]
      obtain rfl : log = callsFor (arranged records) := hlog
      rfl

/-! ### The calls for one key -/

theorem length_valuesOf_arranged (key : Bytes) (records : List Record) :
    (valuesOf key ((arranged records).map Record.entry)).length
      = (records.map Record.key).count key := by
  rw [length_valuesOf, List.map_map, ← (keys_arranged_perm records).count_eq]
  rfl

theorem Ordered.filter_callsFor {records : List Record} (h : Ordered records) (key : Bytes) :
    (callsFor records).filter (fun c => c.key = key)
      = if key ∈ records.map Record.key then [⟨key, valuesOf key (records.map Record.entry)⟩]
        else [] := by
  have hfilter : (fun c : ReduceCall => decide (c.key = key))
      ∘ (fun k => ⟨k, valuesOf k (records.map Record.entry)⟩) = fun k => decide (k = key) := rfl
  rw [h.callsFor_eq, List.filter_map, hfilter, filter_dedup_eq]
  split <;> rfl

end ReduceTask

namespace Job

/-- The stages of a job from its shards to its results, with the calls of the reduce function;
nothing unless every task and the shuffle succeed. -/
def stages (runner : TaskRunner) (hash : Bytes → Nat) (layout : JobLayout) (t : FileTree) :
    Option (List PartitionCall) :=
  let (mapped, t) := runner.runEach t (tasksOf .map layout.mapInputs layout.mapOutputs)
  if mapped.all Except.isOk then
    match Shuffle.run hash layout.mapOutputs layout.reduceInputs t with
    | (.error _, _) => none
    | (.ok _, t) =>
      let (reduced, _, calls) := ReduceTask.runEachLogged runner.workload.reduce runner.aux t 0
        (layout.reduceInputs.zip layout.reduceOutputs)
      if reduced.all Except.isOk then some calls else none
  else none

theorem allOk_of_all {results : List (Except TaskError Nat)} (h : results.all Except.isOk = true) :
    AllOk results := by
  intro result hresult
  have hok := List.all_eq_true.mp h result hresult
  cases result with
  | ok n => exact ⟨n, rfl⟩
  | error e => simp [Except.isOk, Except.toBool] at hok

variable {runner : TaskRunner} {hash : Bytes → Nat} {directory : Path} {n : Nat} {t : FileTree}
  {calls : List PartitionCall}

theorem exists_stages_of_eq_some {layout : JobLayout} (h : stages runner hash layout t = some calls) :
    ∃ mapped t₁ counts t₂ reduced t₃,
      runner.runEach t (tasksOf .map layout.mapInputs layout.mapOutputs) = (mapped, t₁)
        ∧ AllOk mapped
        ∧ Shuffle.run hash layout.mapOutputs layout.reduceInputs t₁ = (.ok counts, t₂)
        ∧ ReduceTask.runEachLogged runner.workload.reduce runner.aux t₂ 0
            (layout.reduceInputs.zip layout.reduceOutputs) = (reduced, t₃, calls)
        ∧ AllOk reduced := by
  rcases hmap : runner.runEach t (tasksOf .map layout.mapInputs layout.mapOutputs) with ⟨mapped, t₁⟩
  rcases hshuffle : Shuffle.run hash layout.mapOutputs layout.reduceInputs t₁ with ⟨shuffled, t₂⟩
  rcases hreduce : ReduceTask.runEachLogged runner.workload.reduce runner.aux t₂ 0
    (layout.reduceInputs.zip layout.reduceOutputs) with ⟨reduced, t₃, made⟩
  simp only [stages, hmap, hshuffle] at h
  split at h
  · next hmapped =>
      cases shuffled with
      | error e => simp at h
      | ok counts =>
          simp only [hreduce] at h
          split at h
          · next hreduced =>
              obtain rfl := Option.some.inj h
              exact ⟨mapped, t₁, counts, t₂, reduced, t₃, rfl, allOk_of_all hmapped, hshuffle, hreduce,
                allOk_of_all hreduced⟩
          · simp at h
  · simp at h

theorem stages_eq_some (h : stages runner hash (JobLayout.within directory n) t = some calls) :
    0 < n ∧ ∃ emitted : List (List Record),
      List.Forall₂ (MapTask.Emits runner.workload.map runner.aux t)
          (JobLayout.within directory n).mapInputs emitted
        ∧ (∀ r ∈ emitted.flatten, r.Writable)
        ∧ calls = (List.range n).flatMap fun i =>
            (ReduceTask.callsFor (ReduceTask.arranged
              (Shuffle.owned hash n i emitted.flatten))).map (⟨i, ·⟩) := by
  obtain ⟨mapped, t₁, counts, t₂, reduced, t₃, hmap, hmapped, hshuffle, hreduce, hreduced⟩ :=
    exists_stages_of_eq_some h
  simp only [JobLayout.within] at hmap hshuffle hreduce ⊢
  have hmapApart : t.Apart (JobLayout.files directory n "map-input")
      (JobLayout.files directory n "map-output") :=
    JobLayout.apart_files t directory n (by decide) (by decide) (by decide)
  have hshuffleApart : t₁.Apart (JobLayout.files directory n "map-output")
      (JobLayout.files directory n "reduce-input") :=
    JobLayout.apart_files t₁ directory n (by decide) (by decide) (by decide)
  have hreduceApart : t₂.Apart (JobLayout.files directory n "reduce-input")
      (JobLayout.files directory n "reduce-output") :=
    JobLayout.apart_files t₂ directory n (by decide) (by decide) (by decide)
  obtain ⟨emitted, hemits, hwritten, -⟩ :=
    MapTask.runEach_eq_ok (by simp) hmapApart hmap hmapped
  obtain ⟨hne, -, howned⟩ := Shuffle.run_written_of_eq_ok hwritten hshuffleApart hshuffle
  rw [JobLayout.length_files] at howned
  have hn : 0 < n := by
    rw [← JobLayout.length_files directory n "reduce-input"]
    exact List.length_pos_iff.mpr hne
  refine ⟨hn, emitted, hemits, MapTask.writable_of_written hwritten, ?_⟩
  rw [ReduceTask.runEachLogged_eq_ok (by simp) hreduceApart howned hreduce hreduced,
    zipIdx_map_range, List.flatMap_map]

theorem all_isOk_of_allOk {results : List (Except TaskError Nat)} (h : AllOk results) :
    results.all Except.isOk = true := by
  rw [List.all_eq_true]
  intro result hresult
  obtain ⟨n, rfl⟩ := h result hresult
  rfl

/-- When the files are in order, the stages succeed if the map function does on each shard and the
reduce function on the records that each partition owns. -/
theorem stages_ordinary {emitted : List (List Record)} (results : Nat → List Bytes) (hn : 0 < n)
    (hroomy : JobLayout.Roomy directory n t)
    (hemits : List.Forall₂ (MapTask.Emits runner.workload.map runner.aux t)
      (JobLayout.files directory n "map-input") emitted)
    (hwritable : ∀ records ∈ emitted, ∀ r ∈ records, r.Writable)
    (htext : ∀ i < n, ∃ text,
      Utf8.decode (Record.fileOf (Shuffle.owned hash n i emitted.flatten)) = .ok text)
    (hreduced : ∀ i < n, ReduceTask.Reduced runner.workload.reduce runner.aux
      (ReduceTask.groups (ReduceTask.arranged (Shuffle.owned hash n i emitted.flatten)))
      (results i)) :
    ∃ calls, stages runner hash (JobLayout.within directory n) t = some calls := by
  obtain ⟨hmapped, hpassed, hwritten⟩ := hroomy.mapped (.refl _ t) hemits hwritable
  obtain ⟨counts, t₂, hshuffle, hpassed₂, howned⟩ := hroomy.shuffled hash hn hpassed hwritten
  have hreduces : List.Forall₂ (ReduceTask.Reduces runner.workload.reduce runner.aux t₂)
      (JobLayout.files directory n "reduce-input") ((List.range n).map results) := by
    rw [List.forall₂_map_right_iff] at howned ⊢
    have hpartitions := (List.forall₂_and_left _ _).mpr
      ⟨fun i (hi : i ∈ List.range n) => List.mem_range.mp hi, howned.flip⟩
    exact hpartitions.flip.imp fun _ i h => ⟨_, h.2, htext i h.1, hreduced i h.1⟩
  obtain ⟨hreducedOk, -, -⟩ := hroomy.reduced hpassed₂ hreduces
  have hsame := congrArg Prod.fst (ReduceTask.runEachLogged_eq runner t₂ 0
    (JobLayout.files directory n "reduce-input") (JobLayout.files directory n "reduce-output"))
  dsimp only at hsame
  rw [← hsame] at hreducedOk
  exact ⟨_, by
    simp only [stages, JobLayout.within, all_isOk_of_allOk hmapped, if_true, hshuffle,
      all_isOk_of_allOk hreducedOk]
    rfl⟩

def twoShards : FileTree :=
  ⟨[], [([], .directory), ([Bytes.ofString "map-input-0"], .file (Bytes.ofString "a=1\n")),
    ([Bytes.ofString "map-input-1"], .file (Bytes.ofString "a=2\nb=3\n"))]⟩

def twoShardRecords : List (List Record) :=
  [[⟨Bytes.ofString "a", Bytes.ofString "1"⟩],
    [⟨Bytes.ofString "a", Bytes.ofString "2"⟩, ⟨Bytes.ofString "b", Bytes.ofString "3"⟩]]

theorem emits_twoShards :
    List.Forall₂ (MapTask.Emits Echo.map [] twoShards) (JobLayout.files [] 2 "map-input")
      twoShardRecords := by
  refine .cons ⟨[Bytes.ofString "map-input-0"], Bytes.ofString "a=1\n", ⟨?_, ?_⟩, ?_⟩
    (.cons ⟨[Bytes.ofString "map-input-1"], Bytes.ofString "a=2\nb=3\n", ⟨?_, ?_⟩, ?_⟩ .nil)
  all_goals decide +kernel

theorem stages_twoShards :
    ∃ calls, stages ⟨Echo.workload, []⟩ keyHash (JobLayout.within [] 2) twoShards = some calls := by
  have hroomy : JobLayout.Roomy [] 2 twoShards := ⟨by decide +kernel, by decide +kernel⟩
  have hwritable : ∀ records ∈ twoShardRecords, ∀ r ∈ records, r.Writable := by decide +kernel
  have harranged : ∀ i < 2, ReduceTask.arranged (Shuffle.owned keyHash 2 i twoShardRecords.flatten)
      = Shuffle.owned keyHash 2 i twoShardRecords.flatten := by
    intro i hi
    have hsame : (Shuffle.owned keyHash 2 i twoShardRecords.flatten).map Record.withoutReturn
        = Shuffle.owned keyHash 2 i twoShardRecords.flatten := by
      revert i
      decide +kernel
    rw [ReduceTask.arranged, hsame]
    apply List.mergeSort_of_pairwise
    revert i
    decide +kernel
  refine stages_ordinary (fun i => [Bytes.ofString (if i = 0 then "b[3]/\n" else "a[1][2]/\n")])
    (by decide) hroomy emits_twoShards hwritable (?_) ?_
  · intro i hi
    refine ⟨(if i = 0 then "b 3\n" else "a 1\na 2\n").toList, ?_⟩
    revert i
    decide +kernel
  · intro i hi
    rw [harranged i hi]
    obtain rfl | rfl : i = 0 ∨ i = 1 := by omega
    · exact .cons (by decide +kernel) .nil
    · exact .cons (by decide +kernel) .nil

/-- **Exactly once.** When the map tasks of a job, its shuffle and its reduce tasks all succeed, the
reduce function has been called for each key that the map function emitted on some shard once, for
no other key, in the partition that the hash gives the key, and with as many values as there are
emitted records with that key. -/
theorem reduce_called_once
    (h : stages runner hash (JobLayout.within directory n) t = some calls) :
    ∃ emitted : List (List Record),
      List.Forall₂ (MapTask.Emits runner.workload.map runner.aux t)
          (JobLayout.within directory n).mapInputs emitted
        ∧ ∀ key,
          (key ∈ emitted.flatten.map Record.key → ∃ values,
            calls.filter (fun c => c.call.key = key) = [⟨hash key % n, ⟨key, values⟩⟩]
              ∧ values.length = (emitted.flatten.map Record.key).count key)
          ∧ (key ∉ emitted.flatten.map Record.key →
            calls.filter (fun c => c.call.key = key) = []) := by
  obtain ⟨hn, emitted, hemits, hwritable, rfl⟩ := stages_eq_some h
  refine ⟨emitted, hemits, ?_⟩
  intro key
  let arrived := fun i => ReduceTask.arranged (Shuffle.owned hash n i emitted.flatten)
  have hpartition : ∀ i, ((ReduceTask.callsFor (arrived i)).map (PartitionCall.mk i)).filter
        (fun c => c.call.key = key)
      = if key ∈ emitted.flatten.map Record.key ∧ hash key % n = i then
          [⟨i, ⟨key, valuesOf key ((arrived i).map Record.entry)⟩⟩] else [] := by
    intro i
    have hordered : ReduceTask.Ordered (arrived i) := by
      apply ReduceTask.ordered_arranged
      intro r hr
      exact hwritable r (List.mem_of_mem_filter hr)
    have hfilter : (fun c : PartitionCall => decide (c.call.key = key)) ∘ PartitionCall.mk i
        = fun c => decide (c.key = key) := rfl
    rw [List.filter_map, hfilter, hordered.filter_callsFor]
    simp only [arrived, (ReduceTask.keys_arranged_perm _).mem_iff, Shuffle.mem_keys_owned_iff]
    split <;> rfl
  rw [List.filter_flatMap]
  simp only [arrived] at hpartition
  simp only [hpartition]
  constructor
  · intro hkey
    refine ⟨valuesOf key ((arrived (hash key % n)).map Record.entry), ?_, ?_⟩
    · rw [flatMap_range_eq (Nat.mod_lt _ hn) _ fun i hi => if_neg fun h => hi h.2.symm,
        if_pos ⟨hkey, rfl⟩]
    · rw [← Shuffle.count_keys_owned rfl]
      exact ReduceTask.length_valuesOf_arranged key _
  · intro hkey
    exact List.flatMap_eq_nil_iff.mpr fun i _ => if_neg fun h => hkey h.1

theorem reduce_called_once_twoShards :
    ∃ calls, stages ⟨Echo.workload, []⟩ keyHash (JobLayout.within [] 2) twoShards = some calls
      ∧ ∃ values, calls.filter (fun c => c.call.key = Bytes.ofString "a")
            = [⟨1, ⟨Bytes.ofString "a", values⟩⟩]
          ∧ values.length = 2 := by
  obtain ⟨calls, hcalls⟩ := stages_twoShards
  obtain ⟨emitted, hemits, hkeys⟩ := reduce_called_once hcalls
  obtain rfl := MapTask.emitted_unique emits_twoShards hemits
  obtain ⟨values, hcall, hlength⟩ := (hkeys (Bytes.ofString "a")).1 (by decide +kernel)
  have hpartition : keyHash (Bytes.ofString "a") % 2 = 1 := by decide +kernel
  rw [hpartition] at hcall
  exact ⟨calls, hcalls, values, hcall, hlength.trans (by decide +kernel)⟩

end Job

end MapReduce
