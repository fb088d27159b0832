import MapReduce.Proofs.ExactlyOnce
import MapReduce.Proofs.Frames
import MapReduce.Proofs.Tokens

/-!
# What arrives

Records that are text and whose values do not end in a carriage return come out of the map tasks,
the shuffle and the reduce tasks as they went in. Whatever the reduce function makes of them, it is
called for the groups of each partition in order, and only its own failure ends a reduce task early.
-/

namespace MapReduce

open FileTree (Touched)

namespace ReduceTask

variable {reduce : ReduceFunction} {aux : Bytes} {t : FileTree} {records : List Record}

/-- How a reduce task ends that calls the reduce function for what is due, and its calls. -/
def answer (reduce : ReduceFunction) (aux : Bytes) (due : List ReduceCall) :
    Except TaskError Nat × List ReduceCall :=
  (endedBy (callUpTo reduce aux due).2 due.length, (callUpTo reduce aux due).1)

/-- In a reduce phase on files of records, each task whose input is text calls for what is due. -/
theorem runEachLogged_written {inputs outputs : List Path} {shards : List (List Record)}
    (hlength : inputs.length = outputs.length) (hapart : t.Apart inputs outputs)
    (hordinary : ∀ output ∈ outputs, t.Ordinary output)
    (hscratch : ∀ output ∈ outputs, t.checkScratch (directoryOf output) = .ok ())
    (hinputs : List.Forall₂ (MapTask.Written t) inputs shards) (i : Nat) :
    ∃ (answers : List (Except TaskError Nat × List ReduceCall)) (t' : FileTree),
      runEachLogged reduce aux t i (inputs.zip outputs)
          = (answers.map Prod.fst, t',
              (answers.zipIdx i).flatMap fun a => a.1.2.map (⟨a.2, ·⟩))
        ∧ List.Forall₂ (fun records a => Utf8.IsText (Record.fileOf records) →
            a = answer reduce aux (callsFor (arranged records))) shards answers := by
  induction inputs generalizing outputs shards t i with
  | nil =>
      obtain rfl := List.forall₂_nil_left_iff.mp hinputs
      exact ⟨[], t, rfl, .nil⟩
  | cons input inputs ih =>
      obtain ⟨output, outputs, rfl⟩ := List.exists_cons_of_length_eq_add_one hlength.symm
      obtain ⟨records, shards, hinput, hrest, rfl⟩ := List.forall₂_cons_left_iff.mp hinputs
      obtain ⟨⟨source, hstores⟩, hrecords⟩ := hinput
      obtain ⟨place, hplace, hnot⟩ := hordinary output (by simp)
      rcases hone : runWith reduce.logged aux input output t [] with ⟨⟨result, t₁⟩, calls⟩
      have htouched : Touched [output] t t₁ := by
        have hrun : Touched [output] t (run reduce aux input output t).2 :=
          runThrough_touched .inMemory reduce aux input output t
        rwa [← fst_runWith_logged reduce aux input output t [], hone] at hrun
      have hwritten : List.Forall₂ (MapTask.Written t₁) inputs shards := by
        refine ((List.forall₂_and_left _ _).mpr ⟨hapart.separate_head, hrest⟩).imp ?_
        rintro j rs ⟨hseparate, hwritten⟩
        exact hwritten.touched htouched hseparate
      obtain ⟨answers, t', hmore, hanswers⟩ := ih (by simpa using hlength)
        (hapart.tail.touched htouched)
        (fun o ho => htouched.ordinary (hordinary o (by simp [ho]))
          (hapart.separate_outputs_head o ho))
        (fun o ho => (htouched.checkScratch _).mpr (hscratch o (by simp [ho]))) hwritten (i + 1)
      refine ⟨(result, calls) :: answers, t', ?_, .cons ?_ hanswers⟩
      · rw [List.zip_cons_cons, runEachLogged]
        simp only [hone, hmore, List.map_cons, List.zipIdx_cons, List.flatMap_cons]
      · intro htext
        obtain ⟨text, hdecode⟩ := Utf8.isText_iff_decode.mp htext
        obtain ⟨t₁', hlogged⟩ := runWith_of_reads hstores (reads_fileOf hrecords hdecode)
          (hscratch output (by simp)) hplace hnot []
        rw [hone, List.nil_append] at hlogged
        obtain ⟨hresult, hcalls⟩ := Prod.mk.inj hlogged
        rw [answer, (Prod.mk.inj hresult).1, hcalls]

/-! ### What is due in a partition -/

/-- One call for each key that the partition owns, with the values that the records hold for it if
no carriage return is at the end of one. -/
structure Due (hash : Bytes → Nat) (n i : Nat) (records : List Record) (due : List ReduceCall) :
    Prop where
  nodup : (due.map ReduceCall.key).Nodup
  mem_keys_iff : ∀ key, key ∈ due.map ReduceCall.key
    ↔ key ∈ records.map Record.key ∧ hash key % n = i
  values : ∀ call ∈ due,
    (∀ r ∈ records, r.key = call.key → r.value.getLast? ≠ some Bytes.carriageReturn) →
      call.values.Perm (valuesOf call.key (records.map Record.entry))

theorem due_owned (hash : Bytes → Nat) (n i : Nat) (hrecords : ∀ r ∈ records, r.Writable) :
    Due hash n i records (callsFor (arranged (Shuffle.owned hash n i records))) := by
  have hordered : Ordered (arranged (Shuffle.owned hash n i records)) :=
    ordered_arranged fun r hr => hrecords r (List.mem_filter.mp hr).1
  have hkeys := hordered.map_key_callsFor
  have hmem : ∀ key, key ∈ (callsFor (arranged (Shuffle.owned hash n i records))).map ReduceCall.key
      ↔ key ∈ records.map Record.key ∧ hash key % n = i := by
    intro key
    rw [hkeys, List.mem_dedup, (keys_arranged_perm _).mem_iff, Shuffle.mem_keys_owned_iff]
  refine ⟨?_, hmem, ?_⟩
  · rw [hkeys]
    exact List.nodup_dedup _
  · intro call hcall hreturn
    have hpartition := ((hmem call.key).mp (List.mem_map_of_mem hcall)).2
    rw [hordered.values_of_mem_callsFor hcall,
      ← Shuffle.valuesOf_owned hpartition records]
    apply valuesOf_arranged_perm
    intro r hr hkey
    exact Record.withoutReturn_of_getLast? (hreturn r (List.mem_filter.mp hr).1 hkey)

/-- A reduce function that does not fail is called for all that is due. -/
theorem callUpTo_of_ok {due : List ReduceCall}
    (h : ∀ call ∈ due, ∃ result, reduce call.key call.values aux = .ok result) :
    callUpTo reduce aux due = (due, none) := by
  obtain ⟨results, hresults⟩ := exists_answered h
  exact callUpTo_of_answered hresults

end ReduceTask

namespace Job

open ReduceTask (Due answer callUpTo)

variable {runner : TaskRunner} {directory : Path} {n : Nat} {t : FileTree}
  {emitted : List (List Record)}

/-- **Arrival.** Whatever the map function emits, if all of it can be encoded, the map tasks and the
shuffle succeed. In a partition whose lines are text, the reduce task calls the reduce function for
each key that the partition owns once, with the values emitted for the key if none of them ends in a
carriage return, and fails only where the reduce function does. -/
theorem records_arrive (hash : Bytes → Nat) (hn : 0 < n) (hroomy : JobLayout.Roomy directory n t)
    (hemits : List.Forall₂ (MapTask.Emits runner.workload.map runner.aux t)
      (JobLayout.within directory n).mapInputs emitted)
    (hencode : ∀ r ∈ emitted.flatten, ∃ bs, r.encode = .ok bs) :
    ∃ mapped t₁ counts t₂ t₃, ∃ answers : List (Except TaskError Nat × List ReduceCall),
      runner.runEach t (tasksOf .map (JobLayout.within directory n).mapInputs
          (JobLayout.within directory n).mapOutputs) = (mapped, t₁)
        ∧ AllOk mapped
        ∧ Shuffle.run hash (JobLayout.within directory n).mapOutputs
            (JobLayout.within directory n).reduceInputs t₁ = (.ok counts, t₂)
        ∧ ReduceTask.runEachLogged runner.workload.reduce runner.aux t₂ 0
            ((JobLayout.within directory n).reduceInputs.zip
              (JobLayout.within directory n).reduceOutputs)
          = (answers.map Prod.fst, t₃, answers.zipIdx.flatMap fun a => a.1.2.map (⟨a.2, ·⟩))
        ∧ ∀ i < n, (∀ r ∈ emitted.flatten, hash r.key % n = i → Utf8.IsText r.line) →
            ∃ due, Due hash n i emitted.flatten due
              ∧ answers[i]? = some (answer runner.workload.reduce runner.aux due) := by
  have hwritable : ∀ r ∈ emitted.flatten, r.Writable := by
    intro r hr
    obtain ⟨bs, hencoded⟩ := hencode r hr
    exact (Record.encode_eq_ok_iff.mp hencoded).1
  obtain ⟨hmapped, hpassed, hwritten⟩ := hroomy.mapped (.refl _ t) hemits
    fun records hrecords r hr => hwritable r (List.mem_flatten.mpr ⟨records, hrecords, hr⟩)
  obtain ⟨counts, t₂, hshuffle, hpassed₂, howned⟩ := hroomy.shuffled hash hn hpassed hwritten
  obtain ⟨answers, t₃, hreduce, hanswers⟩ := ReduceTask.runEachLogged_written (by simp)
    (JobLayout.apart_files t₂ directory n (by decide) (by decide) (by decide))
    (hpassed₂.ordinary (by decide) (by decide) (by decide)
      (hroomy.ordinary "reduce-output" (by decide)))
    (fun path hpath => (FileTree.Touched.checkScratch hpassed₂ _).mpr (hroomy.scratch path hpath))
    howned 0
  refine ⟨_, _, counts, t₂, t₃, answers, rfl, hmapped, hshuffle, hreduce, ?_⟩
  intro i hi htext
  refine ⟨_, ReduceTask.due_owned hash n i hwritable, ?_⟩
  have hfile : Utf8.IsText (Record.fileOf (Shuffle.owned hash n i emitted.flatten)) := by
    apply Record.isText_fileOf
    · exact fun r hr => hwritable r (List.mem_filter.mp hr).1
    · intro r hr
      obtain ⟨hr, hpartition⟩ := List.mem_filter.mp hr
      exact htext r hr (of_decide_eq_true hpartition)
  rw [List.forall₂_map_left_iff, List.forall₂_iff_get] at hanswers
  obtain ⟨hlength, hget⟩ := hanswers
  rw [List.length_range] at hlength
  have hanswer := hget i (by simpa using hi) (hlength ▸ hi)
  simp only [List.get_eq_getElem, List.getElem_range] at hanswer
  rw [List.getElem?_eq_getElem (hlength ▸ hi), hanswer hfile]

theorem records_arrive_twoShards :
    ∃ t₂ reduced t₃ calls values, ReduceTask.runEachLogged Echo.reduce [] t₂ 0
        ((JobLayout.within [] 2).reduceInputs.zip (JobLayout.within [] 2).reduceOutputs)
          = (reduced, t₃, calls)
      ∧ ⟨1, ⟨Bytes.ofString "a", values⟩⟩ ∈ calls
      ∧ values.Perm [Bytes.ofString "1", Bytes.ofString "2"] := by
  have hwritable : ∀ r ∈ twoShardRecords.flatten, r.Writable := by decide +kernel
  have htext : ∀ r ∈ twoShardRecords.flatten, Utf8.IsText r.line := by decide +kernel
  have hreturn : ∀ r ∈ twoShardRecords.flatten,
      r.value.getLast? ≠ some Bytes.carriageReturn := by decide +kernel
  obtain ⟨mapped, t₁, counts, t₂, t₃, answers, -, -, -, hreduce, harrive⟩ :=
    @records_arrive ⟨Echo.workload, []⟩ [] 2 twoShards twoShardRecords keyHash (by decide)
      ⟨by decide +kernel, by decide +kernel⟩ emits_twoShards
      fun r hr => ⟨_, Record.encode_eq_ok_iff.mpr ⟨hwritable r hr, rfl⟩⟩
  obtain ⟨due, hdue, hanswer⟩ := harrive 1 (by decide) fun r hr _ => htext r hr
  have hok : ∀ call ∈ due, ∃ result, Echo.reduce call.key call.values [] = .ok result := by
    intro call hcall
    have hkey := ((hdue.mem_keys_iff call.key).mp (List.mem_map_of_mem hcall)).1
    have hbang : ∀ key ∈ twoShardRecords.flatten.map Record.key, key.head? ≠ some Echo.bang := by
      decide +kernel
    exact ⟨_, if_neg (hbang _ hkey)⟩
  obtain ⟨call, hcall, hkey⟩ := List.mem_map.mp
    ((hdue.mem_keys_iff (Bytes.ofString "a")).mpr (by decide +kernel))
  have hvalues := hdue.values call hcall fun r hr _ => hreturn r hr
  have hemitted : valuesOf (Bytes.ofString "a") (twoShardRecords.flatten.map Record.entry)
      = [Bytes.ofString "1", Bytes.ofString "2"] := by decide +kernel
  rw [hkey, hemitted] at hvalues
  refine ⟨t₂, _, t₃, _, call.values, hreduce, ?_, hvalues⟩
  rw [← hkey]
  have hmade : call ∈ (answer Echo.reduce [] due).2 := by
    rw [answer, ReduceTask.callUpTo_of_ok hok]
    exact hcall
  exact List.mem_flatMap.mpr ⟨(_, 1), List.mk_mem_zipIdx_iff_getElem?.mpr hanswer,
    List.mem_map_of_mem hmade⟩

def oneShard (contents : Bytes) : FileTree :=
  ⟨[], [([], .directory), ([Bytes.ofString "map-input-0"], .file contents)]⟩

/-- Without the two provisos records do not arrive: a value that ends in a carriage return is handed
over without it, and a reduce task refuses a line that is no text. -/
theorem not_all_records_arrive :
    (List.Forall₂ (MapTask.Emits Echo.map [] (oneShard (Bytes.ofString "k=v\r\n")))
          (JobLayout.files [] 1 "map-input") [[⟨Bytes.ofString "k", Bytes.ofString "v\r"⟩]]
        ∧ Record.encode ⟨Bytes.ofString "k", Bytes.ofString "v\r"⟩ = .ok (Bytes.ofString "k v\r\n")
        ∧ stages ⟨Echo.workload, []⟩ keyHash (JobLayout.within [] 1)
            (oneShard (Bytes.ofString "k=v\r\n"))
          = some [⟨0, ⟨Bytes.ofString "k", [Bytes.ofString "v"]⟩⟩])
      ∧ List.Forall₂ (MapTask.Emits Echo.map [] (oneShard [0x6B, 0x3D, 0xFF]))
          (JobLayout.files [] 1 "map-input") [[⟨Bytes.ofString "k", [0xFF]⟩]]
        ∧ Record.encode ⟨Bytes.ofString "k", [0xFF]⟩ = .ok [0x6B, 0x20, 0xFF, 0x0A]
        ∧ stages ⟨Echo.workload, []⟩ keyHash (JobLayout.within [] 1) (oneShard [0x6B, 0x3D, 0xFF])
          = none := by
  refine ⟨⟨?_, by decide +kernel, by decide +kernel⟩, ?_, by decide +kernel, by decide +kernel⟩
  · exact .cons ⟨[Bytes.ofString "map-input-0"], Bytes.ofString "k=v\r\n",
      ⟨by decide +kernel, by decide +kernel⟩, by decide +kernel⟩ .nil
  · exact .cons ⟨[Bytes.ofString "map-input-0"], [0x6B, 0x3D, 0xFF],
      ⟨by decide +kernel, by decide +kernel⟩, by decide +kernel⟩ .nil

end Job

end MapReduce
