import MapReduce.Proofs.Confined
import MapReduce.Proofs.Job.Calls
import MapReduce.Proofs.Job.Setup

/-!
# Failed jobs

A job that fails is over in good order: it tells the first step that failed, no worker is left that
was not stopped, and the output has not been touched unless it was being written.
-/

namespace MapReduce

open FileTree (Rooted Touched)

variable {ω σ : Type}

namespace Job

/-! ### The files -/

def intermediate (directory : Path) (workers : Nat) : List Path :=
  JobLayout.stages.flatMap (JobLayout.files directory workers)

theorem files_subset_intermediate (directory : Path) (workers : Nat) {stage : String}
    (hstage : stage ∈ JobLayout.stages) :
    JobLayout.files directory workers stage ⊆ intermediate directory workers :=
  fun _ hpath => List.mem_flatMap.mpr ⟨stage, hstage, hpath⟩

/-- At most these files are not as they were in the tree, and no others have been named to workers. -/
structure Tidy [HasFiles σ] (named : σ → List Path) (paths : List Path) (t : FileTree) (s : σ) :
    Prop where
  names : named s ⊆ paths
  touched : Touched paths t (HasFiles.files s)

section

variable [HasFiles σ] {named : σ → List Path} {paths more : List Path} {t : FileTree} {s s' : σ}

theorem Tidy.writes (h : Tidy named paths t s) (hwrites : Writes named more s s')
    (hmore : more ⊆ paths) : Tidy named paths t s' := by
  have hsub : more ++ named s ⊆ paths := List.append_subset.mpr ⟨hmore, h.names⟩
  exact ⟨List.Subset.trans hwrites.names hsub, h.touched.trans (hwrites.touched.mono hsub)⟩

theorem ends_of_tidy {ended : Reply × ω × σ} (h : Tidy named paths t ended.2.2) :
    Ends (fun _ => True) (Tidy named paths t) (fun _ => True) ended :=
  ⟨fun _ _ => trivial, h, fun _ => trivial⟩

variable [Worker ω σ] {start : Nat → σ → Except WorkerError ω × σ} {config : JobConfig}

theorem tidy_cycle (h : Confined named start) (paths : List Path) (t : FileTree) :
    Cycle (fun task => task.input ∈ paths ∧ task.output ∈ paths) (fun _ : ω => True)
      (fun _ => True) (Tidy named paths t) (fun _ => True) where
  dispatch task w s htask _ hs :=
    ends_of_tidy (hs.writes (h.dispatch task w s) (by simpa using htask))
  awaitResult bounded w s _ hs :=
    ends_of_tidy (hs.writes (h.awaitResult bounded w s) (List.nil_subset _))
  terminate w s _ hs := ends_of_tidy (hs.writes (h.terminate w s) (List.nil_subset _))
  kill w s hs := ends_of_tidy (hs.writes (h.kill w s) (List.nil_subset _))
  timeout _ _ := trivial

theorem tidy_starts (h : Confined named start) (paths : List Path) (t : FileTree) :
    Pool.Starts (fun _ => True) (Tidy named paths t) (fun _ => True) start :=
  fun index s hs => ⟨hs.writes (h.start index s) (List.nil_subset _), fun _ _ => trivial,
    fun _ _ => trivial⟩

theorem tidy_setFiles (h : Confined named start) {t' : FileTree} (hs : Tidy named paths t s)
    (htouched : Touched paths (HasFiles.files s) t') :
    Tidy named paths t (HasFiles.setFiles t' s) := by
  refine ⟨h.named_setFiles t' s ▸ hs.names, ?_⟩
  rw [h.files_setFiles]
  exact hs.touched.trans htouched

theorem tidy_keeps (h : Confined named start) (config : JobConfig) (directory : Path)
    (t : FileTree) :
    Keeps config directory
      (fun task => task.input ∈ intermediate directory config.workers
        ∧ task.output ∈ intermediate directory config.workers)
      (Tidy named (intermediate directory config.workers) t) := by
  have hstage : ∀ stage ∈ JobLayout.stages, _ := fun stage hstage =>
    files_subset_intermediate directory config.workers hstage
  have hmapInputs := hstage "map-input" (by decide)
  have hmapOutputs := hstage "map-output" (by decide)
  have hreduceInputs := hstage "reduce-input" (by decide)
  have hreduceOutputs := hstage "reduce-output" (by decide)
  exact
    { sharding := fun s hs => tidy_setFiles h hs ((Shard.run_touched _ _ _).mono hmapInputs)
      shuffle := fun s hs => tidy_setFiles h hs ((Shuffle.run_touched _ _ _ _).mono hreduceInputs)
      map := fun file hfile =>
        ⟨hmapInputs (List.of_mem_zip hfile).1, hmapOutputs (List.of_mem_zip hfile).2⟩
      reduce := fun file hfile =>
        ⟨hreduceInputs (List.of_mem_zip hfile).1, hreduceOutputs (List.of_mem_zip hfile).2⟩ }

/-- A job that fails in its directory before it writes its output leaves that directory, less what is
passing, and apart from the intermediate files everything as it was when the directory was made. -/
theorem FailsAt.left (h : Confined named start) (hnamed : named s = []) {e : JobError}
    {p q : Progress ω σ} (hfails : FailsAt start config s e p q) (hsetup : e.phase ≠ .setup)
    (hcombine : e.phase ≠ .combine) :
    ∃ directory passing t t',
      prepare config.workdir (HasFiles.files s) = .ok (directory, passing, t)
        ∧ Touched (intermediate directory config.workers) t t'
        ∧ HasFiles.files (q.leave e.phase) = cleanUp directory passing t' := by
  obtain ⟨directory, passing, t, hprepare⟩ := hfails.reaches.prepared hsetup
  have hcycle := tidy_cycle h (intermediate directory config.workers) t
  have hstarts := tidy_starts h (intermediate directory config.workers) t
  have hkeeps := tidy_keeps h config directory t
  have hbegin : Tidy named (intermediate directory config.workers) t (HasFiles.setFiles t s) := by
    refine ⟨by simp [h.named_setFiles, hnamed], ?_⟩
    rw [h.files_setFiles]
    exact .refl _ t
  have hp := hfails.reaches.underway hcycle hstarts hkeeps hprepare hbegin hsetup
  have hends := step_ends hcycle hstarts hkeeps hsetup hp
  rw [hfails.failed] at hends
  have hstopped : Tidy named (intermediate directory config.workers) t (q.stopWorkers e.phase).2 := by
    rw [Progress.stopWorkers]
    split
    · next hworkers =>
        exact (Pool.close_cycle hcycle (hends.atRest hworkers) (hends.sound hcombine)).sound
    · exact hends.sound hcombine
  refine ⟨directory, passing, t, HasFiles.files (q.stopWorkers e.phase).2, hprepare,
    hstopped.touched, ?_⟩
  rw [leave_of_ne hsetup, h.files_setFiles, hends.directory, hends.passing]

/-- The output is not one of the intermediate files. -/
def OutputApart (config : JobConfig) (t : FileTree) : Prop :=
  ∀ directory passing t₀, prepare config.workdir t = .ok (directory, passing, t₀) →
    ∀ path ∈ intermediate directory config.workers, t₀.Separate config.output path

end

/-! ### The workers -/

/-- How the `k` workers of a job are stopped that fails in some step. -/
structure Stopped (phase : Phase) (k : Nat) (log : List CallEntry) : Prop where
  calls : StoppedAfter phase.handed k phase.stopping log
  all : ∀ i < k, ∃ entry ∈ log, entry.step = (i, .terminate) ∨ entry.step = (i, .kill)
  killed : phase = .map ∨ phase = .reduce →
    (∀ i < k, ∃ entry ∈ log, entry.step = (i, .kill)) ∧ ∀ entry ∈ log, entry.call ≠ .terminate
  asked : phase = .shuffle → ∃ before after, log = before ++ after
    ∧ (∀ entry ∈ before, entry.call ≠ .kill) ∧ ∀ i < k, ∃ entry ∈ before, entry.step = (i, .terminate)

variable [Worker ω σ] [HasFiles σ]

end Job

end MapReduce
