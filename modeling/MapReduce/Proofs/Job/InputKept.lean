import MapReduce.Proofs.Job.Accounts
import MapReduce.Proofs.Pool.Errands

/-!
# The input is kept

Whatever comes of a job, it writes only its intermediate files and its output, and whatever else was
there is there when it is over. So the input is kept if it is none of them, and a job that succeeds has
counted the lines of this very file. An input that is one of the intermediate files is lost.
-/

namespace MapReduce

open FileTree (Grown Rooted Touched)

namespace Job

variable {ω σ : Type} [HasFiles σ] [Worker ω σ]

/-! ### Whatever the outcome -/

section Kept

variable {tasks : Task → Prop} {rests works : ω → Prop} {sound : σ → Prop}
  {fair : WorkerError → Prop} {start : Nat → σ → Except WorkerError ω × σ} {config : JobConfig}
  {directory : Path} {pool : Pool ω} {s : σ}

theorem runPhases_kept (h : Cycle tasks rests works sound fair)
    (hkeeps : Keeps config directory tasks sound) (hp : pool.Rested rests config.workers)
    (hs : sound s) (clock : JobState → Duration) (progress : JobProgress) :
    (runPhases (JobLayout.within directory config.workers) clock progress pool s).2.1.AtRest rests
      ∧ sound (runPhases (JobLayout.within directory config.workers) clock progress pool s).2.2 := by
  have hmap := Pool.runPhase_cycle h hp.state hp.rests hs hkeeps.map
    ((JobLayout.length_files _ _ _).trans hp.length.symm)
    ((JobLayout.length_files _ _ _).trans hp.length.symm)
  rw [runPhases]
  rcases hmapped : pool.runPhase .map (JobLayout.within directory config.workers).mapInputs
    (JobLayout.within directory config.workers).mapOutputs s with ⟨_ | e | _, pool₁, s₁⟩
  all_goals rw [hmapped, hp.length] at hmap
  · have hshuffle := hkeeps.shuffle s₁ hmap.sound
    rcases hshuffled : Shuffle.run keyHash (JobLayout.within directory config.workers).mapOutputs
      (JobLayout.within directory config.workers).reduceInputs (HasFiles.files s₁) with ⟨e | counts, t⟩
    all_goals
      rw [hshuffled] at hshuffle
      simp only [hshuffled]
    · exact ⟨hmap.atRest, hshuffle⟩
    · obtain ⟨hidle, hlength⟩ := hmap.ready rfl
      have hreduce := Pool.runPhase_cycle h hidle (hmap.atRest hidle) hshuffle hkeeps.reduce
        ((JobLayout.length_files _ _ _).trans hlength.symm)
        ((JobLayout.length_files _ _ _).trans hlength.symm)
      rcases hreduced : pool₁.runPhase .reduce (JobLayout.within directory config.workers).reduceInputs
        (JobLayout.within directory config.workers).reduceOutputs (HasFiles.setFiles t s₁)
        with ⟨_ | e | _, pool₂, s₂⟩
      all_goals
        rw [hreduced] at hreduce
        exact ⟨hreduce.atRest, hreduce.sound⟩
  · exact ⟨hmap.atRest, hmap.sound⟩
  · exact ⟨hmap.atRest, hmap.sound⟩

theorem runPool_kept (h : Cycle tasks rests works sound fair)
    (hkeeps : Keeps config directory tasks sound) (hp : pool.Rested rests config.workers)
    (hs : sound s) (clock : JobState → Duration) (progress : JobProgress) :
    sound (runPool (JobLayout.within directory config.workers) clock progress pool s).2 := by
  obtain ⟨hrest, hphases⟩ := runPhases_kept h hkeeps hp hs clock progress
  rw [runPool]
  rcases hended : runPhases (JobLayout.within directory config.workers) clock progress pool s
    with ⟨counts | e | _, pool₁, s₁⟩
  all_goals rw [hended] at hrest hphases
  · have hclose := (Pool.close_cycle h hrest hphases).sound
    rcases hclosed : pool₁.close s₁ with ⟨_ | e | _, workers, s₂⟩
    all_goals
      rw [hclosed] at hclose
      simpa only [hclosed] using hclose
  · have hclose := (Pool.close_cycle h hrest hphases).sound
    rcases hclosed : pool₁.close s₁ with ⟨_ | e' | _, workers, s₂⟩
    all_goals
      rw [hclosed] at hclose
      simpa only [hclosed] using hclose
  · exact hphases

/-- What the steps keep holds in the end, or up to the combining of the results. -/
theorem runWithin_kept (h : Cycle tasks rests works sound fair)
    (hstart : Pool.Starts rests sound fair start) (hkeeps : Keeps config directory tasks sound)
    (clock : JobState → Duration) (progress : JobProgress) (hs : sound s) :
    ∃ s₁, sound s₁ ∧ ((runWithin directory start clock progress config s).2 = s₁
      ∨ (runWithin directory start clock progress config s).2 = HasFiles.setFiles (Combine.intoFile
          (JobLayout.within directory config.workers).reduceOutputs config.output
          (HasFiles.files s₁)).2 s₁) := by
  have hshard := hkeeps.sharding s hs
  rw [runWithin]
  rcases hsharded : Shard.run config.input (JobLayout.within directory config.workers).mapInputs
    (HasFiles.files s) with ⟨e | counts, t⟩
  all_goals rw [hsharded] at hshard
  · exact ⟨_, hshard, .inl rfl⟩
  · dsimp only
    have hopen := Pool.openWith_cycle h hstart config.workers hshard
    rcases hopened : Pool.openWith config.workers start (HasFiles.setFiles t s)
      with ⟨pool | e | _, s₁⟩
    all_goals rw [hopened] at hopen
    · obtain ⟨hidle, hlength, hrests⟩ := hopen.ready pool rfl
      have hrested : (pool.withTaskTimeout config.taskTimeout).Rested rests config.workers :=
        ⟨hidle, hlength, hrests⟩
      have hpool := runPool_kept h hkeeps hrested hopen.sound clock
        ((progress.advance clock .sharding).advance clock .mapping)
      rcases hended : runPool (JobLayout.within directory config.workers) clock
        ((progress.advance clock .sharding).advance clock .mapping)
        (pool.withTaskTimeout config.taskTimeout) s₁ with ⟨⟨records, progress'⟩ | e | _, s₂⟩
      all_goals
        rw [hended] at hpool
        simp only [hended]
      · refine ⟨s₂, hpool, .inr ?_⟩
        rcases Combine.intoFile (JobLayout.within directory config.workers).reduceOutputs
          config.output (HasFiles.files s₂) with ⟨e | bytes, t'⟩
        · rfl
        · rfl
      · exact ⟨s₂, hpool, .inl rfl⟩
      · exact ⟨s₂, hpool, .inl rfl⟩
    · exact ⟨s₁, hopen.sound, .inl rfl⟩
    · exact ⟨s₁, hopen.sound, .inl rfl⟩

end Kept

/-! ### What a job may write -/

def writable (config : JobConfig) (directory : Path) : List Path :=
  intermediate directory config.workers ++ [config.output]

section Frame

variable {named : σ → List Path} {start : Nat → σ → Except WorkerError ω × σ} {config : JobConfig}
  {directory : Path} {passing : Bool} {t₀ : FileTree} {s : σ} {place : Location}

theorem runWithin_touched (h : Confined named start) (hnamed : named s = [])
    (clock : JobState → Duration) (progress : JobProgress) (directory : Path) (t₀ : FileTree) :
    Touched (writable config directory) t₀
      (HasFiles.files (runWithin directory start clock progress config
        (HasFiles.setFiles t₀ s)).2) := by
  obtain ⟨s₁, htidy, hended | hended⟩ :=
    runWithin_kept (tidy_cycle h (intermediate directory config.workers) t₀)
      (tidy_starts h (intermediate directory config.workers) t₀) (tidy_keeps h config directory t₀)
      clock progress (tidy_setFiles_self h (hnamed ▸ List.nil_subset _) t₀)
  · rw [hended]
    exact htidy.touched.mono (List.subset_append_left _ _)
  · rw [hended, h.files_setFiles]
    exact (htidy.touched.mono (List.subset_append_left _ _)).trans
      ((Combine.intoFile_touched _ _ _).mono (List.subset_append_right _ _))

variable (config) in
/-- What a job leaves behind. -/
theorem run_left (h : Confined named start) (hnamed : named s = []) (clock : JobState → Duration) :
    (∃ e, prepare config.workdir (HasFiles.files s) = .error e
        ∧ HasFiles.files (run start clock config s).2 = unprepared config.workdir (HasFiles.files s))
      ∨ ∃ directory passing t₀ t₁,
        prepare config.workdir (HasFiles.files s) = .ok (directory, passing, t₀)
          ∧ Touched (writable config directory) t₀ t₁
          ∧ HasFiles.files (run start clock config s).2 = cleanUp directory passing t₁ := by
  rw [run]
  cases hprepare : prepare config.workdir (HasFiles.files s) with
  | error e => exact .inl ⟨e, rfl, h.files_setFiles _ _⟩
  | ok prepared =>
      obtain ⟨directory, passing, t₀⟩ := prepared
      exact .inr ⟨directory, passing, t₀, _, rfl, runWithin_touched h hnamed clock _ directory t₀,
        h.files_setFiles _ _⟩

/-- A place that none of the paths leads to that a job may write holds what it held when the
directories for intermediate files had been made. -/
theorem get?_run (h : Confined named start) (hnamed : named s = []) (clock : JobState → Duration)
    (hrooted : config.workdir = none → (HasFiles.files s).Rooted)
    (hplace : ∀ directory passing t₀,
      prepare config.workdir (HasFiles.files s) = .ok (directory, passing, t₀) →
        ∀ path ∈ writable config directory, t₀.resolve path ≠ .ok place) :
    (HasFiles.files (run start clock config s).2).get? place
      = (unprepared config.workdir (HasFiles.files s)).get? place := by
  rcases run_left config h hnamed clock
    with ⟨e, -, hleft⟩ | ⟨directory, passing, t₀, t₁, hprepare, htouched, hleft⟩
  · rw [hleft]
  · rw [hleft]
    exact (prepared_of_eq_ok hprepare).left hrooted htouched (hplace _ _ _ hprepare)

/-- Directories that are there before a job are there after it. -/
theorem run_directories (h : Confined named start) (hnamed : named s = []) (clock : JobState → Duration)
    (hrooted : config.workdir = none → (HasFiles.files s).Rooted) :
    (HasFiles.files (run start clock config s).2).workingDirectory
        = (HasFiles.files s).workingDirectory
      ∧ ∀ q, (HasFiles.files s).get? q = some .directory →
          (HasFiles.files (run start clock config s).2).get? q = some .directory := by
  rcases run_left config h hnamed clock
    with ⟨e, -, hleft⟩ | ⟨directory, passing, t₀, t₁, hprepare, ⟨places, -, hrew⟩, hleft⟩
  · have hgrown := grown_unprepared config.workdir (HasFiles.files s)
    rw [hleft]
    exact ⟨hgrown.workingDirectory, hgrown.directory⟩
  · have hprepared := prepared_of_eq_ok hprepare
    have hkept : ∀ q, (HasFiles.files s).get? q = some .directory → t₁.get? q = some .directory :=
      fun q hq => (hrew.directory q).mpr (hprepared.grown.directory q hq)
    have hwork := hrew.workingDirectory.trans hprepared.grown.workingDirectory
    rw [hleft]
    cases hcase : config.workdir with
    | some path =>
        rw [hcase] at hprepared
        cases hprepared
        exact ⟨hwork, hkept⟩
    | none =>
        rw [hcase] at hprepared
        cases hprepared with
        | @fresh _ stop hresolve hfree =>
            have hresolve₁ : t₁.resolve directory = .ok stop :=
              (hrew.resolve directory stop).mpr ((FileTree.grown_put hfree).resolve hresolve)
            rw [cleanUp_fresh hresolve₁]
            refine ⟨hwork, fun q hq => ?_⟩
            have hbelow : ¬ stop <+: q := fun hbelow =>
              nomatch hq.symm.trans ((hrooted hcase).get?_eq_none hfree hbelow)
            rw [FileTree.get?_removeAll hbelow]
            exact hkept q hq

end Frame

/-! ### The input -/

section Input

variable {named : σ → List Path} {start : Nat → σ → Except WorkerError ω × σ} {config : JobConfig}
  {directory : Path} {passing : Bool} {t t₀ : FileTree} {s s' : σ} {place : Location}
  {contents : Bytes} {outcome : Outcome JobError JobReport}

/-- The input path leads to a place, at once or when the directory for intermediate files is there. -/
def InputAt (config : JobConfig) (t : FileTree) (place : Location) : Prop :=
  t.resolve config.input = .ok place
    ∨ ∃ directory passing t₀, prepare config.workdir t = .ok (directory, passing, t₀)
        ∧ t₀.resolve config.input = .ok place

/-- The output is not the input. -/
def OutputElsewhere (config : JobConfig) (t : FileTree) : Prop :=
  ∀ directory passing t₀, prepare config.workdir t = .ok (directory, passing, t₀) →
    t₀.Separate config.input config.output

/-- The input is in its place with its contents, the path leads there if it did so before, and a report
tells how many lines it has. -/
structure InputKept (config : JobConfig) (t : FileTree) (place : Location) (contents : Bytes)
    (outcome : Outcome JobError JobReport) (t' : FileTree) : Prop where
  kept : t'.get? place = some (.file contents)
  path : t.resolve config.input = .ok place → t'.resolve config.input = .ok place
  lines : ∀ report, outcome = .ok report → report.inputLines = (Bytes.lines contents).length

theorem InputAt.resolve (h : InputAt config t place)
    (hprepare : prepare config.workdir t = .ok (directory, passing, t₀)) :
    t₀.resolve config.input = .ok place := by
  rcases h with hresolve | ⟨_, _, _, hprepare', hresolve⟩
  · exact (prepared_of_eq_ok hprepare).grown.resolve hresolve
  · obtain ⟨-, hrest⟩ := Prod.mk.inj (Except.ok.inj (hprepare.symm.trans hprepare'))
    obtain ⟨-, rfl⟩ := Prod.mk.inj hrest
    exact hresolve

/-- What was there before is not in a fresh directory. -/
theorem inputApart_of_fresh (hworkdir : config.workdir = none) (hrooted : t.Rooted)
    (hat : InputAt config t place) (hsome : t.get? place ≠ none) : InputApart config t := by
  intro directory passing t₀ hprepare path hpath a b ha hb hab
  obtain rfl := Except.ok.inj ((hat.resolve hprepare).symm.trans ha)
  subst hab
  have hprepared := prepared_of_eq_ok hprepare
  rw [hworkdir] at hprepared
  cases hprepared with
  | @fresh _ stop hresolve hfree =>
      obtain ⟨stage, hstage, hpath⟩ := List.mem_flatMap.mp hpath
      obtain ⟨i, -, rfl⟩ := List.mem_map.mp hpath
      obtain ⟨parent, hparent, rfl⟩ :=
        FileTree.resolve_join (JobLayout.plain_fileName hstage i) hb
      obtain ⟨_, -, hstop⟩ := bind_eq_ok.mp ((FileTree.grown_put hfree).resolve hresolve)
      obtain rfl := Except.ok.inj (hparent.symm.trans hstop)
      exact hsome (hrooted.get?_concat hfree _)

/-- The report of a job that succeeds counts the lines of the input. -/
theorem Course.inputLines_of_contents {clock : JobState → Duration} {report : JobReport}
    (c : Course start clock config s report s') (h : Confined named start)
    (hat : InputAt config (HasFiles.files s) place)
    (hcontents : (HasFiles.files s).get? place = some (.file contents))
    (hapart : InputApart config (HasFiles.files s)) :
    report.inputLines = (Bytes.lines contents).length := by
  obtain ⟨⟨place', contents', hstores, hlines⟩, -⟩ := c.shard_counts h hapart
  obtain rfl := Except.ok.inj ((hat.resolve c.prepare_eq).symm.trans hstores.resolve)
  have hsame : c.prepared.get? place = some (.file contents) := by
    rcases (prepared_of_eq_ok c.prepare_eq).grown.get? place with hsame | ⟨hnone, -⟩
    · rw [hsame, hcontents]
    · cases hcontents.symm.trans hnone
  have hread := hstores.read
  rw [FileTree.read, hsame] at hread
  obtain rfl := Except.ok.inj hread
  rw [c.inputLines_eq, JobReport.total_eq_sum, ← hlines]

/-- Confined workers leave the input as it was, whatever the job comes to. -/
theorem inputKept_of_confined (h : Confined named start) (hnamed : named s = [])
    (hat : InputAt config (HasFiles.files s) place)
    (hcontents : (HasFiles.files s).get? place = some (.file contents))
    (houtput : OutputElsewhere config (HasFiles.files s))
    (hintermediate : config.workdir ≠ none → InputApart config (HasFiles.files s))
    (hrooted : config.workdir = none → (HasFiles.files s).Rooted) (clock : JobState → Duration) :
    InputKept config (HasFiles.files s) place contents (run start clock config s).1
      (HasFiles.files (run start clock config s).2) := by
  have hapart : InputApart config (HasFiles.files s) := by
    by_cases hworkdir : config.workdir = none
    · exact inputApart_of_fresh hworkdir (hrooted hworkdir) hat (by simp [hcontents])
    · exact hintermediate hworkdir
  have hfree : ∀ directory passing t₀,
      prepare config.workdir (HasFiles.files s) = .ok (directory, passing, t₀) →
        ∀ path ∈ writable config directory, t₀.resolve path ≠ .ok place := by
    intro directory passing t₀ hprepare path hpath hplace
    have hresolve := hat.resolve hprepare
    rcases List.mem_append.mp hpath with hpath | hpath
    · exact hapart _ _ _ hprepare path hpath place place hresolve hplace rfl
    · rw [List.mem_singleton.mp hpath] at hplace
      exact houtput _ _ _ hprepare place place hresolve hplace rfl
  have hleft := get?_run h hnamed clock hrooted hfree
  obtain ⟨hwork, hdirectories⟩ := run_directories h hnamed clock hrooted
  refine ⟨?_, FileTree.resolve_of_directories hwork hdirectories, ?_⟩
  · rw [hleft]
    rcases (grown_unprepared config.workdir (HasFiles.files s)).get? place with hsame | ⟨hnone, -⟩
    · rw [hsame, hcontents]
    · cases hcontents.symm.trans hnone
  · intro report hok
    obtain ⟨c⟩ := exists_course (Prod.ext hok rfl : run start clock config s = (.ok report, _))
    exact c.inputLines_of_contents h hat hcontents hapart

end Input

/-- **The input is kept.** If neither the output path nor, where a directory is given, that of an
intermediate file leads to the input, then it is kept, whatever the job comes to. So it is with all
workers that a job can be launched with, and with processes that take turns in any order. -/
theorem run_keeps_input (config : JobConfig) (t : FileTree) (place : Location) (contents : Bytes)
    (hat : InputAt config t place) (hcontents : t.get? place = some (.file contents))
    (houtput : OutputElsewhere config t)
    (hintermediate : config.workdir ≠ none → InputApart config t)
    (hrooted : config.workdir = none → t.Rooted) (clock : JobState → Duration) :
    (∀ launch : Launch, InputKept config t place contents (run launch.start clock config t).1
      (run launch.start clock config t).2)
    ∧ ∀ (schedule : Schedule) (program : Path) (arguments : List Bytes)
        (how : CommandLine.WorkerStart),
      InputKept config t place contents
        (run (Workshop.start program arguments how) clock config (Workshop.ofFiles schedule t)).1
        (run (Workshop.start program arguments how) clock config
          (Workshop.ofFiles schedule t)).2.files := by
  constructor
  · intro launch
    exact inputKept_of_confined launch.confined rfl hat hcontents houtput hintermediate hrooted clock
  · intro schedule program arguments how
    exact inputKept_of_confined (s := Workshop.ofFiles schedule t)
      (Workshop.confined program arguments how) rfl hat hcontents houtput hintermediate hrooted clock

/-- A worker program, and two files where a job has its intermediate files, the first of them where a
job of one worker has its shard. -/
def leftShards : FileTree :=
  ⟨[], [([], .directory), ([Bytes.ofString "worker"], .workerProgram),
    ([Bytes.ofString "work"], .directory),
    ([Bytes.ofString "work", Bytes.ofString "map-input-0"], .file (Bytes.ofString "a b\na\n")),
    ([Bytes.ofString "work", Bytes.ofString "map-input-1"], .file (Bytes.ofString "a b\na\n"))]⟩

def ofShard (input : String) : JobConfig where
  workers := 1
  workers_pos := Nat.one_pos
  program := Bytes.ofString "/worker"
  arguments := []
  input := Bytes.ofString input
  output := Bytes.ofString "out"
  taskTimeout := none
  workdir := some (Bytes.ofString "work")

theorem prepare_leftShards (input : String) : prepare (ofShard input).workdir leftShards
    = .ok (Bytes.ofString "work", false, leftShards) := by
  have hgiven : prepare (some (Bytes.ofString "work")) leftShards
      = .ok (Bytes.ofString "work", false, leftShards) := by
    decide +kernel
  exact hgiven

theorem outputElsewhere_leftShards {input : String}
    (h : leftShards.Separate (Bytes.ofString input) (Bytes.ofString "out")) :
    OutputElsewhere (ofShard input) leftShards := by
  intro directory passing t hprepare
  obtain ⟨-, hrest⟩ := Prod.mk.inj (Except.ok.inj (hprepare.symm.trans (prepare_leftShards input)))
  obtain ⟨-, rfl⟩ := Prod.mk.inj hrest
  exact h

/-- A process of the worker program. -/
def plainWorker : Launch :=
  .program (Bytes.ofString "/worker") []

theorem run_keeps_input_leftShards :
    InputKept (ofShard "work/map-input-1") leftShards [Bytes.ofString "work", Bytes.ofString "map-input-1"]
      (Bytes.ofString "a b\na\n")
      (run plainWorker.start (fun _ => 0) (ofShard "work/map-input-1") leftShards).1
      (run plainWorker.start (fun _ => 0) (ofShard "work/map-input-1") leftShards).2 := by
  have hapart : InputApart (ofShard "work/map-input-1") leftShards := by
    intro directory passing t hprepare
    obtain ⟨rfl, hrest⟩ := Prod.mk.inj (Except.ok.inj (hprepare.symm.trans (prepare_leftShards _)))
    obtain ⟨-, rfl⟩ := Prod.mk.inj hrest
    decide +kernel
  exact (run_keeps_input (ofShard "work/map-input-1") leftShards
    [Bytes.ofString "work", Bytes.ofString "map-input-1"] (Bytes.ofString "a b\na\n")
    (.inl (by decide +kernel)) (by decide +kernel) (outputElsewhere_leftShards (by decide +kernel))
    (fun _ => hapart) (fun hworkdir => by cases hworkdir) fun _ => 0).1 plainWorker

def noLines : JobReport :=
  ⟨1, 0, [0], 0, [0], 0, noTime⟩

/-- The input is emptied before it is read if it is where the first shard goes, and the job reports no
line of it. -/
theorem input_lost_leftShards :
    OutputElsewhere (ofShard "work/map-input-0") leftShards
      ∧ leftShards.resolve (ofShard "work/map-input-0").input
          = .ok [Bytes.ofString "work", Bytes.ofString "map-input-0"]
      ∧ leftShards.get? [Bytes.ofString "work", Bytes.ofString "map-input-0"]
          = some (.file (Bytes.ofString "a b\na\n"))
      ∧ (Bytes.lines (Bytes.ofString "a b\na\n")).length = 2
      ∧ (run plainWorker.start (fun _ => 0) (ofShard "work/map-input-0") leftShards).1 = .ok noLines
      ∧ (run plainWorker.start (fun _ => 0) (ofShard "work/map-input-0") leftShards).2.get?
          [Bytes.ofString "work", Bytes.ofString "map-input-0"] = some (.file [])
      ∧ noLines.inputLines = 0 :=
  ⟨outputElsewhere_leftShards (by decide +kernel), by decide +kernel, by decide +kernel,
    by decide +kernel, by decide +kernel, by decide +kernel, rfl⟩

end Job

end MapReduce
