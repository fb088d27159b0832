import MapReduce.Proofs.Job.Steps
import MapReduce.Proofs.Legible
import MapReduce.Proofs.Pool.Crew

/-!
# A job meets no bad record

The files of a job are written by its map tasks, then by its shuffle, each before the next stage reads
them, and no two of them are the same file. So the shuffle of a job finds what map tasks wrote, and its
reduce tasks find what the shuffle wrote, in whatever order the processes take their turns.
-/

namespace MapReduce

open Pool (Crew)

/-! ### The files of one stage and the next -/

namespace JobLayout

theorem apart_map (t : FileTree) (directory : Path) (n : Nat) :
    t.Apart (within directory n).mapInputs (within directory n).mapOutputs :=
  apart_files t directory n (by decide) (by decide) (by decide)

theorem apart_shuffle (t : FileTree) (directory : Path) (n : Nat) :
    t.Apart (within directory n).mapOutputs (within directory n).reduceInputs :=
  apart_files t directory n (by decide) (by decide) (by decide)

theorem apart_reduce (t : FileTree) (directory : Path) (n : Nat) :
    t.Apart (within directory n).reduceInputs (within directory n).reduceOutputs :=
  apart_files t directory n (by decide) (by decide) (by decide)

end JobLayout

namespace Job

/-! ### What each step leaves -/

section

variable {ω σ : Type} [HasFiles σ] {p q : Progress ω σ}

theorem afterFiles_eq_ok {ε α : Type} {cause : ε → PhaseError} {ended : Except ε α × FileTree}
    (h : p.afterFiles cause ended = (.ok (), q)) :
    ∃ a t, ended = (.ok a, t) ∧ q = p.withFiles t := by
  rcases ended with ⟨e | a, t⟩
  · cases h
  · exact ⟨a, t, rfl, (Prod.mk.inj h).2.symm⟩

theorem afterFiles_eq_failed {ε α : Type} {cause : ε → PhaseError} {ended : Except ε α × FileTree}
    {e : PhaseError} (h : p.afterFiles cause ended = (.failed e, q)) :
    ∃ e' t, ended = (.error e', t) ∧ e = cause e' := by
  rcases ended with ⟨e' | a, t⟩
  · exact ⟨e', t, rfl, (Outcome.failed.inj (Prod.mk.inj h).1).symm⟩
  · cases h

variable [Worker ω σ] {how : CommandLine.WorkerStart}
  {start : Nat → σ → Except WorkerError ω × σ} {calm : σ → Prop}
  {ready : Nat → Pool ω → σ → Prop} {config : JobConfig} {s : σ} {phase phase' : Phase}

/-- What a crew has done when a job comes to a step. -/
def Supplied (calm : σ → Prop) (ready : Nat → Pool ω → σ → Prop) (config : JobConfig)
    (p : Progress ω σ) : Phase → Prop
  | .setup | .sharding | .startup => calm p.world
  | .map => ready config.workers p.pool p.world
  | .shuffle => ready config.workers p.pool p.world
      ∧ ∀ path ∈ (p.layout config).mapOutputs, MapTask.Wrote p.files path
  | .reduce => ∀ path ∈ (p.layout config).reduceInputs, p.files.HoldsRecords path
  | .shutdown | .combine => True

theorem ready_of_openWith (hcrew : Crew config.program config.arguments how start calm ready)
    (hcalm : calm s) {pool : Pool ω} {s' : σ}
    (hopen : Pool.openWith config.workers start s = (.ok pool, s')) :
    ready config.workers pool s' := by
  by_cases hfound : Launch.findProgram config.program config.arguments (HasFiles.files s) = .ok ()
  · obtain ⟨pool', s'', hopen', hready, -⟩ :=
      hcrew.openWith_found config.workers s config.workers_pos hcalm hfound
    obtain ⟨hpool, rfl⟩ := Prod.mk.inj (hopen'.symm.trans hopen)
    obtain rfl := Outcome.ok.inj hpool
    exact hready
  · obtain ⟨e, s'', hopen'⟩ := hcrew.openWith_missing config.workers s config.workers_pos hfound
    cases (Prod.mk.inj (hopen'.symm.trans hopen)).1

/-- When the map phase of a job has succeeded, its outputs are as map tasks left them. -/
theorem wrote_of_runPhase (hcrew : Crew config.program config.arguments how start calm ready)
    (hready : ready config.workers p.pool p.world) {pool : Pool ω} {s' : σ}
    (hphase : p.pool.runPhase .map (p.layout config).mapInputs (p.layout config).mapOutputs p.world
      = (.ok (), pool, s')) :
    ready config.workers pool s'
      ∧ ∀ path ∈ (p.layout config).mapOutputs, MapTask.Wrote (HasFiles.files s') path := by
  have hends := hcrew.runPhase config.workers p.pool p.world .map (p.layout config).mapInputs
    (p.layout config).mapOutputs config.workers_pos hready (JobLayout.length_files _ _ _)
    (JobLayout.length_files _ _ _)
  rw [hphase] at hends
  cases hends with
  | @ok runner tasks _ _ _ _ hperm hok hfiles hready' =>
      refine ⟨hready', fun path hpath => ?_⟩
      have hlength : (p.layout config).mapInputs.length = (p.layout config).mapOutputs.length :=
        (JobLayout.length_files _ _ _).trans (JobLayout.length_files _ _ _).symm
      have hunrelated := ((JobLayout.apart_map (HasFiles.files p.world) p.directory
        config.workers).unrelated .map hlength).perm hperm
      rw [← map_output_tasksOf .map hlength] at hpath
      obtain ⟨task, htask, rfl⟩ := List.mem_map.mp hpath
      rw [hfiles]
      exact TaskRunner.wrote_of_runEach hunrelated
        (fun task htask => kind_of_mem_tasksOf (hperm.mem_iff.mp htask)) hok task
        (hperm.mem_iff.mpr htask)

/-- One step. -/
theorem Supplied.step (hcrew : Crew config.program config.arguments how start calm ready)
    (h : Supplied calm ready config p phase) (hstep : step start config p phase = (.ok (), q))
    (hnext : phase.next? = some phase') : Supplied calm ready config q phase' := by
  cases phase with
  | setup =>
      obtain rfl := Option.some.inj hnext
      rw [Job.step] at hstep
      split at hstep
      · cases hstep
      · obtain rfl := (Prod.mk.inj hstep).2
        exact hcrew.calm_setFiles _ _ h
  | sharding =>
      obtain rfl := Option.some.inj hnext
      obtain ⟨counts, t, -, rfl⟩ := afterFiles_eq_ok hstep
      exact hcrew.calm_setFiles t _ h
  | startup =>
      obtain rfl := Option.some.inj hnext
      rw [Job.step] at hstep
      rcases hopen : Pool.openWith config.workers start p.world with ⟨pool | e | _, s'⟩
      all_goals rw [hopen] at hstep
      · obtain rfl := (Prod.mk.inj hstep).2
        exact hcrew.ready_withTaskTimeout _ _ _ _ (ready_of_openWith hcrew h hopen)
      · cases hstep
      · cases hstep
  | map =>
      obtain rfl := Option.some.inj hnext
      rw [Job.step] at hstep
      rcases hphase : p.pool.runPhase .map (p.layout config).mapInputs (p.layout config).mapOutputs
        p.world with ⟨_ | e | _, pool, s'⟩
      all_goals rw [afterPhase_eq hphase] at hstep
      · obtain rfl := (Prod.mk.inj hstep).2
        exact wrote_of_runPhase hcrew h hphase
      · cases hstep
      · cases hstep
  | shuffle =>
      obtain rfl := Option.some.inj hnext
      obtain ⟨counts, t, hshuffle, rfl⟩ := afterFiles_eq_ok hstep
      intro path hpath
      rw [Progress.files, Progress.withFiles, hcrew.files_setFiles]
      have hapart := JobLayout.apart_shuffle p.files p.directory config.workers
      exact Shuffle.holdsRecords_of_run hapart.separate_outputs hshuffle path hpath
  | reduce =>
      obtain rfl := Option.some.inj hnext
      trivial
  | shutdown =>
      obtain rfl := Option.some.inj hnext
      trivial
  | combine => cases hnext

/-- Wherever a job comes to. -/
theorem Reaches.supplied (hcrew : Crew config.program config.arguments how start calm ready)
    (hcalm : calm s) (hreaches : Reaches start config s phase p) :
    Supplied calm ready config p phase := by
  induction hreaches with
  | begin => exact hcalm
  | next _ hstep hnext ih => exact ih.step hcrew hstep hnext

/-- A step that fails on a shuffle is the shuffle. -/
theorem shuffle_of_step_failed {e : ShuffleError}
    (hfail : step start config p phase = (.failed (.shuffle e), q)) :
    phase = .shuffle ∧ ∃ t, Shuffle.run keyHash (p.layout config).mapOutputs
      (p.layout config).reduceInputs p.files = (.error e, t) := by
  have hpool : ∀ reply : PoolReply Unit, poolOutcome reply ≠ .failed (.shuffle e) := by
    rintro (_ | _ | _) hreply <;> cases hreply
  cases phase with
  | setup =>
      rw [step] at hfail
      split at hfail <;> cases hfail
  | startup =>
      rw [step] at hfail
      split at hfail <;> cases hfail
  | sharding =>
      obtain ⟨e', t, -, he⟩ := afterFiles_eq_failed hfail
      cases he
  | combine =>
      obtain ⟨e', t, -, he⟩ := afterFiles_eq_failed hfail
      cases he
  | map => exact absurd (Prod.mk.inj hfail).1 (hpool _)
  | reduce => exact absurd (Prod.mk.inj hfail).1 (hpool _)
  | shutdown => exact absurd (Prod.mk.inj hfail).1 (hpool _)
  | shuffle =>
      obtain ⟨e', t, hshuffle, he⟩ := afterFiles_eq_failed hfail
      obtain rfl := PhaseError.shuffle.inj he
      exact ⟨rfl, t, hshuffle⟩

/-- A job of a crew does not fail on a bad record in its shuffle. -/
theorem exists_io_of_run_shuffle (hcrew : Crew config.program config.arguments how start calm ready)
    (hcalm : calm s) {clock : JobState → Duration} {e : JobError} {cause : ShuffleError} {s' : σ}
    (hfail : run start clock config s = (.failed e, s')) (hsource : e.source = .shuffle cause) :
    ∃ io, cause = .io io := by
  obtain ⟨p, q, hfails, -⟩ := run_eq_failed hfail
  have hstep := hfails.failed
  rw [hsource] at hstep
  obtain ⟨hphase, t, hshuffle⟩ := shuffle_of_step_failed hstep
  obtain ⟨-, hwrote⟩ := hphase ▸ hfails.reaches.supplied hcrew hcalm
  have hapart := JobLayout.apart_shuffle p.files p.directory config.workers
  exact Shuffle.exists_io_of_run (fun input hinput =>
    Shuffle.exists_suppliesApart (hwrote input hinput) (hapart.separate input hinput)) hshuffle

/-- The reduce tasks of a job of a crew, in any order, meet no bad record. -/
theorem failsLegibly_of_reaches
    (hcrew : Crew config.program config.arguments how start calm ready) (hcalm : calm s)
    (hreaches : Reaches start config s .reduce p) (runner : TaskRunner) {tasks : List Task}
    (hperm : tasks.Perm
      (tasksOf .reduce (p.layout config).reduceInputs (p.layout config).reduceOutputs)) :
    runner.FailsLegibly p.files tasks := by
  have hrecords : ∀ path ∈ (p.layout config).reduceInputs, p.files.HoldsRecords path :=
    hreaches.supplied hcrew hcalm
  have hlength : (p.layout config).reduceInputs.length = (p.layout config).reduceOutputs.length :=
    (JobLayout.length_files _ _ _).trans (JobLayout.length_files _ _ _).symm
  have hapart := JobLayout.apart_reduce p.files p.directory config.workers
  refine TaskRunner.failsLegibly ((hapart.unrelated .reduce hlength).perm hperm)
    (fun task htask => kind_of_mem_tasksOf (hperm.mem_iff.mp htask)) fun task htask => ?_
  apply hrecords
  rw [← map_input_tasksOf .reduce hlength]
  exact List.mem_map_of_mem (hperm.mem_iff.mp htask)

end

/-- **Records stay legible.** A shuffle of files that map tasks wrote fails only on its files. A reduce
task on a file that a shuffle wrote fails only on its files, on an input that is no text, or on its
reduce function. In a job this needs no assumption about its files: whatever its workers run, and in
whatever order they take their turns, neither its shuffle nor a task of its reduce phase meets a line
that is no record. -/
theorem records_stay_legible :
    (∀ {hash : Bytes → Nat} {inputs outputs : List Path} {t t' : FileTree} {e : ShuffleError},
      (∀ input ∈ inputs, MapTask.Wrote t input) →
      (∀ input ∈ inputs, ∀ output ∈ outputs, t.Separate input output) →
      Shuffle.run hash inputs outputs t = (.error e, t') → ∃ cause, e = .io cause)
    ∧ (∀ {hash : Bytes → Nat} {inputs outputs : List Path} {t t' : FileTree} {counts : List Nat},
      outputs.Pairwise t.Separate → Shuffle.run hash inputs outputs t = (.ok counts, t') →
      ∀ path ∈ outputs, ∀ u, t'.SameFile u path →
        ∀ reduce aux output cause u', ReduceTask.run reduce aux path output u = (.error cause, u') →
          ReduceTask.Failure reduce aux u path cause)
    ∧ ∀ (how : CommandLine.WorkerStart) (schedule : Schedule) (clock : JobState → Duration)
        (config : JobConfig) (t : FileTree),
      let start := Workshop.start config.program config.arguments how
      let s := Workshop.ofFiles schedule t
      (∀ e s', run start clock config s = (.failed e, s') →
        ∀ cause, e.source = .shuffle cause → ∃ io, cause = .io io)
      ∧ ∀ p, Reaches start config s .reduce p → ∀ (runner : TaskRunner) (tasks : List Task),
        tasks.Perm (tasksOf .reduce (p.layout config).reduceInputs (p.layout config).reduceOutputs) →
        runner.FailsLegibly p.files tasks := by
  refine ⟨?_, ?_, ?_⟩
  · intro hash inputs outputs t t' e hwrote hseparate hfail
    exact Shuffle.exists_io_of_run (fun input hinput =>
      Shuffle.exists_suppliesApart (hwrote input hinput) (hseparate input hinput)) hfail
  · intro hash inputs outputs t t' counts houtputs hok path hpath u hsame reduce aux output cause
      u' hfail
    exact ReduceTask.failure_of_run
      ((Shuffle.holdsRecords_of_run houtputs hok path hpath).sameFile hsame) hfail
  · intro how schedule clock config t start s
    have hcrew := Pool.crew_workshop config.program config.arguments how
    have hcalm := Workshop.calm_ofFiles schedule t
    refine ⟨fun e s' hfail cause hsource => exists_io_of_run_shuffle hcrew hcalm hfail hsource, ?_⟩
    intro p hreaches runner tasks hperm
    exact failsLegibly_of_reaches hcrew hcalm hreaches runner hperm

/-- The map function emits a key and a value that end in carriage returns, and the reduce function
fails. -/
def returning : Workload where
  map input _ := .ok [.ok ⟨Bytes.ofString "k\r", input.value.filter (· != Bytes.newline)⟩]
  reduce _ _ _ := .error .notEdge

def oneReturn : FileTree :=
  ⟨[], [([], .directory), ([Bytes.ofString "worker"], .workerProgram),
    ([Bytes.ofString "work"], .directory), ([Bytes.ofString "in"], .file (Bytes.ofString "v\r\n")),
    ([Bytes.ofString "full"], .fullDevice)]⟩

/-- What a map task leaves. -/
def oneMapped : FileTree :=
  (MapTask.run returning.map [] (Bytes.ofString "in") (Bytes.ofString "mapped") oneReturn).2

/-- What a shuffle leaves after it. -/
def oneShuffled : FileTree :=
  (Shuffle.run keyHash [Bytes.ofString "mapped"] [Bytes.ofString "shuffled"] oneMapped).2

/-- The reduce input cannot be written. -/
def oneClogged : FileTree :=
  oneReturn.put [Bytes.ofString "work", Bytes.ofString "reduce-input-0"] .fullDevice

def oneWorker : JobConfig where
  workers := 1
  workers_pos := Nat.one_pos
  program := Bytes.ofString "/worker"
  arguments := []
  input := Bytes.ofString "in"
  output := Bytes.ofString "out"
  taskTimeout := none
  workdir := some (Bytes.ofString "work")

theorem records_stay_legible_returning :
    let start := Workshop.start oneWorker.program oneWorker.arguments (.serving ⟨returning, []⟩)
    let schedule : Schedule := ⟨id, fun _ => .refl _⟩
    (∃ cause, (Shuffle.run keyHash [Bytes.ofString "mapped"] [Bytes.ofString "full"] oneMapped).1
        = .error (.io cause))
      ∧ ReduceTask.Failure returning.reduce [] oneShuffled (Bytes.ofString "shuffled")
        (.workload .notEdge)
      ∧ (∃ io, (run start (fun _ => 0) oneWorker (.ofFiles schedule oneClogged)).1
        = .failed ⟨.shuffle, .shuffle (.io io)⟩)
      ∧ ∃ p, Reaches start oneWorker (.ofFiles schedule oneReturn) .reduce p
        ∧ TaskRunner.FailsLegibly ⟨returning, []⟩ p.files
          (tasksOf .reduce (p.layout oneWorker).reduceInputs (p.layout oneWorker).reduceOutputs) := by
  intro start schedule
  obtain ⟨hshuffled, hreduced, hjob⟩ := records_stay_legible
  refine ⟨?_, ?_, ?_, ?_⟩
  · have hmapped : MapTask.run returning.map [] (Bytes.ofString "in") (Bytes.ofString "mapped")
        oneReturn = (.ok 1, oneMapped) := Prod.ext (by decide +kernel) rfl
    have hwrote : ∀ input ∈ [Bytes.ofString "mapped"], MapTask.Wrote oneMapped input := by
      intro input hinput
      rw [List.mem_singleton.mp hinput]
      exact ⟨_, _, _, _, _, _, hmapped, rfl⟩
    rcases hrun : Shuffle.run keyHash [Bytes.ofString "mapped"] [Bytes.ofString "full"] oneMapped
      with ⟨e | counts, t'⟩
    · obtain ⟨cause, rfl⟩ := hshuffled hwrote (by decide +kernel) hrun
      exact ⟨cause, rfl⟩
    · have hfails : (Shuffle.run keyHash [Bytes.ofString "mapped"] [Bytes.ofString "full"]
          oneMapped).1.isOk = false := by decide +kernel
      rw [hrun] at hfails
      cases hfails
  · have hrun : Shuffle.run keyHash [Bytes.ofString "mapped"] [Bytes.ofString "shuffled"] oneMapped
        = (.ok [1], oneShuffled) := Prod.ext (by decide +kernel) rfl
    have hreduce : ReduceTask.run returning.reduce [] (Bytes.ofString "shuffled")
        (Bytes.ofString "reduced") oneShuffled = (.error (.workload .notEdge), _) :=
      Prod.ext (by decide +kernel) rfl
    exact hreduced (by simp) hrun _ (by simp) oneShuffled rfl _ _ _ _ _ hreduce
  · have hfails : (run start (fun _ => 0) oneWorker (.ofFiles schedule oneClogged)).1
        = .failed ⟨.shuffle, .shuffle (.io (.worded .storageFull
          "failed to flush work/reduce-input-0: No space left on device (os error 28)"))⟩ := by
      decide +kernel
    obtain ⟨io, hio⟩ := (hjob _ schedule (fun _ => 0) oneWorker oneClogged).1 _ _
      (Prod.ext hfails rfl) _ rfl
    exact ⟨io, hio ▸ hfails⟩
  · have hfails : (run start (fun _ => 0) oneWorker (.ofFiles schedule oneReturn)).1
        = .failed ⟨.reduce, .pool (.worker (.reported 0 "Invalid input file format"))⟩ := by
      decide +kernel
    obtain ⟨p, q, hat, -⟩ := run_eq_failed (Prod.ext hfails rfl)
    exact ⟨p, hat.reaches, (hjob _ schedule (fun _ => 0) oneWorker oneReturn).2 p hat.reaches
      ⟨returning, []⟩ _ (.refl _)⟩

/-- Two outputs at one path overwrite each other, and a line is left that is no record. -/
example :
    let path := Bytes.ofString "p"
    let t : FileTree :=
      ⟨[], [([], .directory), ([Bytes.ofString "in"], .file (Bytes.ofString "bb 22\na 1\n"))]⟩
    let shuffled := Shuffle.run List.length [Bytes.ofString "in"] [path, path] t
    shuffled.1 = .ok [1, 1] ∧ shuffled.2.read [path] = .ok (Bytes.ofString "a 1\n2\n")
      ∧ Record.split (Bytes.ofString "2") = .error (.malformed (Bytes.ofString "2")) := by
  decide +kernel

end Job

end MapReduce
