import MapReduce.Proofs.ReduceTask
import MapReduce.TaskRun

/-!
# Tasks one after the other

The tasks of one phase read and write separate files, so each of them finds its input as it was
before the phase, and what it wrote is still there when the phase is over.
-/

namespace MapReduce

open FileTree (Touched)

namespace TaskRunner

/-- Runs tasks one after the other, however they end. -/
def runEach (runner : TaskRunner) (t : FileTree) :
    List Task → List (Except TaskError Nat) × FileTree
  | [] => ([], t)
  | task :: tasks =>
    let (result, t) := runner.run task t
    let (results, t) := runEach runner t tasks
    (result :: results, t)

theorem runEach_cons (runner : TaskRunner) (t : FileTree) (task : Task) (tasks : List Task) :
    runner.runEach t (task :: tasks)
      = ((runner.run task t).1 :: (runner.runEach (runner.run task t).2 tasks).1,
        (runner.runEach (runner.run task t).2 tasks).2) := rfl

end TaskRunner

def tasksOf (kind : TaskKind) (inputs outputs : List Path) : List Task :=
  List.zipWith (fun input output => ⟨kind, input, output⟩) inputs outputs

theorem tasksOf_cons (kind : TaskKind) (input output : Path) (inputs outputs : List Path) :
    tasksOf kind (input :: inputs) (output :: outputs)
      = ⟨kind, input, output⟩ :: tasksOf kind inputs outputs := rfl

theorem map_input_tasksOf (kind : TaskKind) {inputs outputs : List Path}
    (hlength : inputs.length = outputs.length) :
    (tasksOf kind inputs outputs).map Task.input = inputs := by
  rw [tasksOf, ← List.map_uncurry_zip_eq_zipWith, List.map_map]
  exact List.map_fst_zip (Nat.le_of_eq hlength)

theorem map_output_tasksOf (kind : TaskKind) {inputs outputs : List Path}
    (hlength : inputs.length = outputs.length) :
    (tasksOf kind inputs outputs).map Task.output = outputs := by
  rw [tasksOf, ← List.map_uncurry_zip_eq_zipWith, List.map_map]
  exact List.map_snd_zip (Nat.le_of_eq hlength.symm)

theorem kind_of_mem_tasksOf {kind : TaskKind} {inputs outputs : List Path} {task : Task}
    (h : task ∈ tasksOf kind inputs outputs) : task.kind = kind := by
  rw [tasksOf, ← List.map_uncurry_zip_eq_zipWith] at h
  obtain ⟨files, -, rfl⟩ := List.mem_map.mp h
  rfl

def AllOk (results : List (Except TaskError Nat)) : Prop :=
  ∀ result ∈ results, ∃ n, result = .ok n

theorem allOk_cons_iff {result : Except TaskError Nat} {results : List (Except TaskError Nat)} :
    AllOk (result :: results) ↔ (∃ n, result = .ok n) ∧ AllOk results := by
  simp [AllOk]

/-- Inputs and outputs of tasks that do not get in each other's way. -/
structure FileTree.Apart (t : FileTree) (inputs outputs : List Path) : Prop where
  separate_outputs : outputs.Pairwise t.Separate
  separate : ∀ input ∈ inputs, ∀ output ∈ outputs, t.Separate input output
  not_endsInSlash : ∀ output ∈ outputs, output.endsInSlash = false

namespace FileTree.Apart

variable {t t' : FileTree} {input output : Path} {inputs outputs : List Path}

theorem tail (h : t.Apart (input :: inputs) (output :: outputs)) : t.Apart inputs outputs where
  separate_outputs := (List.pairwise_cons.mp h.separate_outputs).2
  separate i hi o ho := h.separate i (List.mem_cons_of_mem _ hi) o (List.mem_cons_of_mem _ ho)
  not_endsInSlash o ho := h.not_endsInSlash o (List.mem_cons_of_mem _ ho)

theorem separate_head (h : t.Apart (input :: inputs) (output :: outputs)) :
    ∀ i ∈ inputs, ∀ o ∈ [output], t.Separate i o := by
  intro i hi o ho
  rw [List.mem_singleton.mp ho]
  exact h.separate i (List.mem_cons_of_mem _ hi) output List.mem_cons_self

theorem head_separate_outputs (h : t.Apart (input :: inputs) (output :: outputs)) :
    ∀ o ∈ outputs, t.Separate output o :=
  (List.pairwise_cons.mp h.separate_outputs).1

theorem separate_outputs_head (h : t.Apart (input :: inputs) (output :: outputs)) :
    ∀ o ∈ outputs, ∀ o' ∈ [output], t.Separate o o' := by
  intro o ho o' ho'
  rw [List.mem_singleton.mp ho']
  exact (h.head_separate_outputs o ho).symm

theorem touched {paths : List Path} (h : t.Apart inputs outputs)
    (htouched : Touched paths t t') : t'.Apart inputs outputs where
  separate_outputs := h.separate_outputs.imp fun hseparate => htouched.separate hseparate
  separate i hi o ho := htouched.separate (h.separate i hi o ho)
  not_endsInSlash := h.not_endsInSlash

end FileTree.Apart

namespace MapTask

/-- On an input, the map function emits these records. -/
def Emits (map : MapFunction) (aux : Bytes) (t : FileTree) (input : Path) (records : List Record) :
    Prop :=
  ∃ source contents, t.Stores input source contents
    ∧ map ⟨Bytes.ofString input.show, contents⟩ aux = .ok (records.map .ok)

def Written (t : FileTree) (output : Path) (records : List Record) : Prop :=
  (∃ place, t.Stores output place (Record.fileOf records)) ∧ ∀ r ∈ records, r.Writable

variable {map : MapFunction} {aux : Bytes} {t t' : FileTree} {paths : List Path}
  {input output : Path} {records : List Record}

theorem Emits.touched (h : Emits map aux t input records) (htouched : Touched paths t t')
    (hpaths : ∀ p ∈ paths, t.Separate input p) : Emits map aux t' input records := by
  obtain ⟨source, contents, hstores, hmap⟩ := h
  exact ⟨source, contents, htouched.stores hstores hpaths, hmap⟩

theorem Written.touched (h : Written t output records) (htouched : Touched paths t t')
    (hpaths : ∀ p ∈ paths, t.Separate output p) : Written t' output records := by
  obtain ⟨⟨place, hstores⟩, hrecords⟩ := h
  exact ⟨⟨place, htouched.stores hstores hpaths⟩, hrecords⟩

theorem run_eq_ok_written {runner : TaskRunner} {n : Nat} (hslash : output.endsInSlash = false)
    (hrun : runner.run ⟨.map, input, output⟩ t = (.ok n, t')) :
    ∃ records, Emits runner.workload.map runner.aux t input records ∧ Written t' output records
      ∧ Touched [output] t t' := by
  obtain ⟨contents, place, full, records, hread, hresolve, hmap, hrecords, hholds, hrew⟩ :=
    run_eq_ok hrun
  obtain ⟨source, hsource⟩ := FileTree.stores_of_bind_read hread
  have htouched := Touched.of_resolve hresolve hrew
  have hstores := hholds.stores ((htouched.resolve _ _).mpr hresolve) hslash
  exact ⟨records, ⟨source, contents, hsource, hmap⟩, ⟨⟨place, hstores⟩, hrecords⟩, htouched⟩

/-- A map phase in which every task goes well has written down what the map function emits on the
inputs. -/
theorem runEach_eq_ok {runner : TaskRunner} {inputs outputs : List Path}
    {results : List (Except TaskError Nat)} (hlength : inputs.length = outputs.length)
    (hapart : t.Apart inputs outputs)
    (hrun : runner.runEach t (tasksOf .map inputs outputs) = (results, t')) (hok : AllOk results) :
    ∃ emitted : List (List Record),
      List.Forall₂ (Emits runner.workload.map runner.aux t) inputs emitted
        ∧ List.Forall₂ (Written t') outputs emitted ∧ Touched outputs t t' := by
  induction inputs generalizing outputs t results with
  | nil =>
      obtain rfl : outputs = [] := List.length_eq_zero_iff.mp hlength.symm
      obtain ⟨-, rfl⟩ := Prod.mk.inj hrun
      exact ⟨[], .nil, .nil, .refl _ _⟩
  | cons input inputs ih =>
      obtain ⟨output, outputs, rfl⟩ := List.exists_cons_of_length_eq_add_one hlength.symm
      rw [tasksOf_cons, TaskRunner.runEach] at hrun
      rcases hone : runner.run ⟨.map, input, output⟩ t with ⟨result, t₁⟩
      rcases hrest : runner.runEach t₁ (tasksOf .map inputs outputs) with ⟨results, t₂⟩
      simp only [hone, hrest, Prod.mk.injEq] at hrun
      obtain ⟨rfl, rfl⟩ := hrun
      obtain ⟨⟨n, rfl⟩, hokRest⟩ := allOk_cons_iff.mp hok
      obtain ⟨records, hemitsHead, hwrittenHead, htouched⟩ :=
        run_eq_ok_written (hapart.not_endsInSlash output (by simp)) hone
      obtain ⟨emitted, hemits, hwritten, htouched'⟩ :=
        ih (by simpa using hlength) (hapart.tail.touched htouched) hrest hokRest
      refine ⟨records :: emitted, .cons hemitsHead ?_, .cons ?_ hwritten,
        (htouched.mono (by simp)).trans (htouched'.mono (by simp))⟩
      · refine ((List.forall₂_and_left _ _).mpr ⟨hapart.separate_head, hemits⟩).imp ?_
        rintro i rs ⟨hseparate, hemits⟩
        exact hemits.touched htouched.symm fun o ho => htouched.separate (hseparate o ho)
      · exact hwrittenHead.touched htouched' fun o ho =>
          htouched.separate (hapart.head_separate_outputs o ho)

/-- When the files are in order, a map phase fails only if the map function does. -/
theorem runEach_ordinary {runner : TaskRunner} {inputs outputs : List Path}
    {emitted : List (List Record)} (hlength : inputs.length = outputs.length)
    (hapart : t.Apart inputs outputs) (hordinary : ∀ output ∈ outputs, t.Ordinary output)
    (hemits : List.Forall₂ (Emits runner.workload.map runner.aux t) inputs emitted)
    (hwritable : ∀ records ∈ emitted, ∀ r ∈ records, r.Writable) :
    AllOk (runner.runEach t (tasksOf .map inputs outputs)).1 := by
  induction inputs generalizing outputs emitted t with
  | nil =>
      obtain rfl : outputs = [] := List.length_eq_zero_iff.mp hlength.symm
      simp [tasksOf, TaskRunner.runEach, AllOk]
  | cons input inputs ih =>
      obtain ⟨output, outputs, rfl⟩ := List.exists_cons_of_length_eq_add_one hlength.symm
      obtain ⟨records, emitted, hinput, hrest, rfl⟩ := List.forall₂_cons_left_iff.mp hemits
      obtain ⟨source, contents, hstores, hmap⟩ := hinput
      obtain ⟨place, hplace, hnot⟩ := hordinary output (by simp)
      obtain ⟨n, t₁, hone⟩ := run_of_map_eq_ok hstores.openFile_bind_read hplace hnot hmap
        (hwritable records (by simp))
      have hrun : runner.run ⟨.map, input, output⟩ t = (.ok n, t₁) := hone
      obtain ⟨-, -, -, htouched⟩ :=
        run_eq_ok_written (hapart.not_endsInSlash output (by simp)) hrun
      have hemits₁ : List.Forall₂ (Emits runner.workload.map runner.aux t₁) inputs emitted := by
        refine ((List.forall₂_and_left _ _).mpr ⟨hapart.separate_head, hrest⟩).imp ?_
        rintro i rs ⟨hseparate, hemits⟩
        exact hemits.touched htouched hseparate
      rw [tasksOf_cons, TaskRunner.runEach, hrun, allOk_cons_iff]
      exact ⟨⟨n, rfl⟩, ih (by simpa using hlength) (hapart.tail.touched htouched)
        (fun o ho => htouched.ordinary (hordinary o (by simp [ho]))
          (hapart.separate_outputs_head o ho))
        hemits₁ fun rs hrs => hwritable rs (by simp [hrs])⟩

end MapTask

namespace ReduceTask

/-- A file of records whose keys reduce to these results. -/
structure Reducible (reduce : ReduceFunction) (aux : Bytes) (t : FileTree) (input : Path)
    (records : List Record) (results : List Bytes) : Prop where
  written : MapTask.Written t input records
  text : ∃ text, Utf8.decode (Record.fileOf records) = .ok text
  reduced : Reduced reduce aux (groups (arranged records)) results

def Reduces (reduce : ReduceFunction) (aux : Bytes) (t : FileTree) (input : Path)
    (results : List Bytes) : Prop :=
  ∃ records, Reducible reduce aux t input records results

variable {reduce : ReduceFunction} {aux : Bytes} {t t' : FileTree}

theorem Reduces.touched {paths : List Path} {input : Path} {results : List Bytes}
    (h : Reduces reduce aux t input results) (htouched : Touched paths t t')
    (hpaths : ∀ p ∈ paths, t.Separate input p) : Reduces reduce aux t' input results := by
  obtain ⟨records, ⟨⟨source, hstores⟩, hwritable⟩, htext, hreduced⟩ := h
  exact ⟨records, ⟨⟨source, htouched.stores hstores hpaths⟩, hwritable⟩, htext, hreduced⟩

/-- When the files are in order, a reduce phase leaves the results in its outputs. -/
theorem runEach_ordinary {runner : TaskRunner} {inputs outputs : List Path}
    {resultss : List (List Bytes)} (hlength : inputs.length = outputs.length)
    (hapart : t.Apart inputs outputs) (hordinary : ∀ output ∈ outputs, t.Ordinary output)
    (hscratch : ∀ output ∈ outputs, t.checkScratch (directoryOf output) = .ok ())
    (hinputs : List.Forall₂ (Reduces runner.workload.reduce runner.aux t) inputs resultss) :
    AllOk (runner.runEach t (tasksOf .reduce inputs outputs)).1
      ∧ Touched outputs t (runner.runEach t (tasksOf .reduce inputs outputs)).2
      ∧ List.Forall₂ (fun output results => ∃ place,
          (runner.runEach t (tasksOf .reduce inputs outputs)).2.Stores output place results.flatten)
          outputs resultss := by
  induction inputs generalizing outputs resultss t with
  | nil =>
      obtain rfl : outputs = [] := List.length_eq_zero_iff.mp hlength.symm
      obtain rfl := List.forall₂_nil_left_iff.mp hinputs
      exact ⟨by simp [tasksOf, TaskRunner.runEach, AllOk], .refl _ _, .nil⟩
  | cons input inputs ih =>
      obtain ⟨output, outputs, rfl⟩ := List.exists_cons_of_length_eq_add_one hlength.symm
      obtain ⟨results, resultss, hinput, hrest, rfl⟩ := List.forall₂_cons_left_iff.mp hinputs
      obtain ⟨records, ⟨⟨source, hstores⟩, hwritable⟩, ⟨text, htext⟩, hreduced⟩ := hinput
      obtain ⟨place, hplace, hnot⟩ := hordinary output (by simp)
      obtain ⟨n, t₁, hone⟩ := run_of_reduced hstores.openFile hstores.read hwritable htext
        (hscratch output (by simp)) hplace hnot hreduced
      obtain ⟨place', full, results', hresolve, hreduced', hholds, hrew, -⟩ :=
        run_eq_ok [] hstores.openFile hstores.read hwritable hone
      obtain rfl := hreduced.unique hreduced'
      have htouched := Touched.of_resolve hresolve hrew
      have hrun : runner.run ⟨.reduce, input, output⟩ t = (.ok n, t₁) := hone
      have hinputs₁ : List.Forall₂ (Reduces runner.workload.reduce runner.aux t₁) inputs
          resultss := by
        refine ((List.forall₂_and_left _ _).mpr ⟨hapart.separate_head, hrest⟩).imp ?_
        rintro i rs ⟨hseparate, hreduces⟩
        exact hreduces.touched htouched hseparate
      obtain ⟨hok, htouched', hstored⟩ := ih (by simpa using hlength) (hapart.tail.touched htouched)
        (fun o ho => htouched.ordinary (hordinary o (by simp [ho]))
          (hapart.separate_outputs_head o ho))
        (fun o ho => (htouched.checkScratch _).mpr (hscratch o (by simp [ho]))) hinputs₁
      have hstores₁ : t₁.Stores output place' results.flatten :=
        hholds.stores ((htouched.resolve _ _).mpr hresolve) (hapart.not_endsInSlash output (by simp))
      rw [tasksOf_cons, TaskRunner.runEach, hrun, allOk_cons_iff]
      refine ⟨⟨⟨n, rfl⟩, hok⟩, (htouched.mono (by simp)).trans (htouched'.mono (by simp)),
        .cons ⟨place', htouched'.stores hstores₁ ?_⟩ hstored⟩
      intro o ho
      exact htouched.separate (hapart.head_separate_outputs o ho)

end ReduceTask

end MapReduce
