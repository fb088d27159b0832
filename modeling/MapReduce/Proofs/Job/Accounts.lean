import MapReduce.Proofs.Job.Course
import MapReduce.Proofs.Job.Failure
import MapReduce.Proofs.Tally

/-!
# The report agrees with the files

The numbers in the report of a job come from three stages that count on their own. Each stage finds the
files of the stage before as they were left, because the workers write only the output files named in
their commands, and no later stage writes a file that has been counted. So when the job is over, the
numbers are those of the files that are there.
-/

namespace MapReduce

open FileTree (Touched)
open JobLayout (files)

theorem JobReport.total_eq_sum (counts : List Nat) : JobReport.total counts = counts.sum :=
  List.sum_eq_foldl.symm

namespace Job

/-! ### Files that are no longer written -/

/-- The intermediate files of some stages, and the output. -/
def written (directory : Path) (workers : Nat) (later : List String) (output : Path) : List Path :=
  later.flatMap (files directory workers) ++ [output]

section

variable {directory output path : Path} {n : Nat} {later : List String} {stage : String}
  {t t' : FileTree} {measure : Bytes → Nat} {ns : List Nat}

theorem files_subset_written (hstage : stage ∈ later) :
    files directory n stage ⊆ written directory n later output :=
  fun _ hpath => List.mem_append_left _ (List.mem_flatMap.mpr ⟨stage, hstage, hpath⟩)

theorem output_subset_written : [output] ⊆ written directory n later output :=
  List.subset_append_right _ _

/-- What was measured of the files of a stage is kept as long as only files of other stages and the
output are written. -/
theorem measures_kept (h : List.Forall₂ (t.Measures measure) (files directory n stage) ns)
    (hstage : stage ∈ JobLayout.stages)
    (houtput : ∀ path ∈ files directory n stage, t'.Separate output path)
    (htouched : Touched (written directory n later output) t t') (hsub : later ⊆ JobLayout.stages)
    (hlater : stage ∉ later) :
    List.Forall₂ (t'.Measures measure) (files directory n stage) ns := by
  refine FileTree.forall₂_measures_touched h htouched fun path hpath p hp => ?_
  rcases List.mem_append.mp hp with hp | hp
  · obtain ⟨stage', hstage', hp⟩ := List.mem_flatMap.mp hp
    have hne : stage ≠ stage' := fun heq => hlater (heq ▸ hstage')
    exact JobLayout.separate_of_mem_files t hstage (hsub hstage') hne hpath hp
  · rw [List.mem_singleton.mp hp]
    exact (htouched.symm.separate (houtput path hpath)).symm

end

/-! ### What the workers write -/

variable {ω σ : Type} [HasFiles σ] [Worker ω σ] {named : σ → List Path} {paths : List Path}
  {t : FileTree} {start : Nat → σ → Except WorkerError ω × σ} {clock : JobState → Duration}
  {config : JobConfig} {s s' : σ} {report : JobReport}

/-- Workers that have nothing left to write once a phase has succeeded. -/
def Settles (ω : Type) {σ : Type} [Worker ω σ] (named : σ → List Path) : Prop :=
  ∀ (p p' : Pool ω) (kind : TaskKind) (inputs outputs : List Path) (s s' : σ),
    p.runPhase kind inputs outputs s = (.ok (), p', s') → named s' = []

theorem outputs_cycle (h : OutputsOnly named start) (paths : List Path) (t : FileTree) :
    Cycle (fun task => task.output ∈ paths) (fun _ : ω => True) (fun _ => True)
      (Tidy named paths t) (fun _ => True) :=
  { tidy_cycle h.toConfined paths t with
    dispatch := fun task w s htask _ hs =>
      ends_of_tidy (hs.writes (h.dispatch_output task w s) (by simpa using htask)) }

theorem tidy_setFiles_self (h : Confined named start) (hnames : named s ⊆ paths) (t : FileTree) :
    Tidy named paths t (HasFiles.setFiles t s) := by
  refine ⟨h.named_setFiles t s ▸ hnames, ?_⟩
  rw [h.files_setFiles]
  exact .refl _ t

/-- A phase that succeeds leaves a pool that can start the next, and writes its outputs only. -/
theorem rested_of_runPhase (h : OutputsOnly named start) {p p' : Pool ω} {kind : TaskKind}
    {inputs outputs : List Path} {n : Nat} (hp : p.Rested (fun _ => True) n)
    (hs : Tidy named paths t s) (hinputs : inputs.length = n) (houtputs : outputs.length = n)
    (hsub : outputs ⊆ paths) (hok : p.runPhase kind inputs outputs s = (.ok (), p', s')) :
    p'.Rested (fun _ => True) n ∧ Tidy named paths t s' := by
  have hended : Pool.PhaseEnds (fun _ => True) (Tidy named paths t) (fun _ => True)
      p.workers.length (p.runPhase kind inputs outputs s) :=
    Pool.runPhase_cycle (outputs_cycle h paths t) hp.state hp.rests hs
      (fun file hfile => hsub (List.of_mem_zip hfile).2) (hinputs.trans hp.length.symm)
      (houtputs.trans hp.length.symm)
  rw [hok, hp.length] at hended
  obtain ⟨hidle, hlength⟩ := hended.ready rfl
  exact ⟨⟨hidle, hlength, fun _ _ => trivial⟩, hended.sound⟩

/-! ### The stages of a job that succeeds -/

namespace Course

variable (c : Course start clock config s report s')

theorem shard_run (h : Confined named start) :
    Shard.run config.input (files c.directory config.workers "map-input") c.prepared
      = (.ok report.shardLines, c.sharded) := by
  have hrun := c.shard_eq
  rwa [h.files_setFiles] at hrun

theorem touched_sharded (h : Confined named start) :
    Touched (files c.directory config.workers "map-input") c.prepared c.sharded := by
  have htouched := Shard.run_touched config.input (files c.directory config.workers "map-input")
    c.prepared
  rwa [c.shard_run h] at htouched

theorem rested_mapped (h : OutputsOnly named start) (hnamed : named s = []) :
    c.mapped.1.Rested (fun _ => True) config.workers
      ∧ Tidy named (files c.directory config.workers "map-output") c.sharded c.mapped.2 := by
  have hnames : named (HasFiles.setFiles c.prepared s)
      ⊆ files c.directory config.workers "map-output" := by
    rw [h.named_setFiles, hnamed]
    exact List.nil_subset _
  have hbegin := tidy_setFiles_self h.toConfined hnames c.sharded
  have hopen := Pool.openWith_cycle (outputs_cycle h _ c.sharded)
    (tidy_starts h.toConfined _ c.sharded) config.workers hbegin
  rw [c.open_eq] at hopen
  obtain ⟨hidle, hlength, hrests⟩ := hopen.ready c.opened.1 rfl
  have hrested : (c.opened.1.withTaskTimeout config.taskTimeout).Rested (fun _ => True)
      config.workers := ⟨hidle, hlength, hrests⟩
  exact rested_of_runPhase h hrested hopen.sound (JobLayout.length_files _ _ _)
    (JobLayout.length_files _ _ _) (List.Subset.refl _) c.map_eq

theorem touched_shuffled :
    Touched (files c.directory config.workers "reduce-input") (HasFiles.files c.mapped.2)
      c.shuffled := by
  have htouched := Shuffle.run_touched keyHash (files c.directory config.workers "map-output")
    (files c.directory config.workers "reduce-input") (HasFiles.files c.mapped.2)
  have hrun : Shuffle.run keyHash (files c.directory config.workers "map-output")
    (files c.directory config.workers "reduce-input") (HasFiles.files c.mapped.2) = _ := c.shuffle_eq
  rwa [hrun] at htouched

/-- From the shuffle to the stopping of the workers, only their outputs are written. -/
theorem touched_closed (h : OutputsOnly named start) (hnamed : named s = [])
    (hnames : named c.mapped.2 ⊆ paths)
    (houtputs : files c.directory config.workers "reduce-output" ⊆ paths) :
    Touched paths c.shuffled (HasFiles.files c.closed.2) := by
  obtain ⟨hrested, hreduced⟩ := rested_of_runPhase h (c.rested_mapped h hnamed).1
    (tidy_setFiles_self h.toConfined hnames c.shuffled) (JobLayout.length_files _ _ _)
    (JobLayout.length_files _ _ _) houtputs c.reduce_eq
  have hclose := Pool.close_cycle (outputs_cycle h paths c.shuffled) (fun _ => hrested.rests) hreduced
  rw [c.close_eq] at hclose
  exact hclose.sound.touched

theorem touched_combined :
    Touched [config.output] (HasFiles.files c.closed.2) c.combined := by
  have htouched := Combine.intoFile_touched (files c.directory config.workers "reduce-output")
    config.output (HasFiles.files c.closed.2)
  have hrun : Combine.intoFile (files c.directory config.workers "reduce-output") config.output
    (HasFiles.files c.closed.2) = _ := c.combine_eq
  rwa [hrun] at htouched

end Course

/-! ### The report -/

/-- The input is not one of the intermediate files. -/
def InputApart (config : JobConfig) (t : FileTree) : Prop :=
  ∀ directory passing t₀, prepare config.workdir t = .ok (directory, passing, t₀) →
    ∀ path ∈ intermediate directory config.workers, t₀.Separate config.input path

/-- A report tells of these files: of the input `before` the job, of the map outputs as the shuffle
found them, `mapped`, and of the other intermediate files and the output `after` the job. -/
structure Agrees (report : JobReport) (config : JobConfig) (layout : JobLayout)
    (before mapped after : FileTree) : Prop where
  length_shardLines : report.shardLines.length = config.workers
  length_partitionRecords : report.partitionRecords.length = config.workers
  input : before.LineCount config.input report.inputLines
  inputLines : report.inputLines = report.shardLines.sum
  mapInputs : List.Forall₂ after.LineCount layout.mapInputs report.shardLines
  mapOutputs : ∃ counts, List.Forall₂ mapped.LineCount layout.mapOutputs counts
    ∧ report.shuffledRecords = counts.sum
  reduceInputs : List.Forall₂ after.LineCount layout.reduceInputs report.partitionRecords
  shuffledRecords : report.shuffledRecords = report.partitionRecords.sum
  reduceOutputs : ∃ sizes, List.Forall₂ after.Size layout.reduceOutputs sizes
    ∧ report.outputBytes = sizes.sum
  output : after.Size config.output report.outputBytes
  timings : report.timings.map StateTiming.state
    = [.sharding, .mapping, .shuffling, .reducing, .combining]

namespace Course

variable (c : Course start clock config s report s')

/-- What is written from the shuffle on. -/
theorem touched_of_shuffled (h : OutputsOnly named start) (hnamed : named s = [])
    {later : List String}
    (hnames : named c.mapped.2 ⊆ written c.directory config.workers later config.output)
    (hlater : "reduce-output" ∈ later) :
    Touched (written c.directory config.workers later config.output) c.shuffled c.combined :=
  (c.touched_closed h hnamed hnames (files_subset_written hlater)).trans
    (c.touched_combined.mono output_subset_written)

/-- What is written from the end of the map phase on. -/
theorem touched_of_mapped (h : OutputsOnly named start) (hnamed : named s = [])
    {later : List String}
    (hnames : named c.mapped.2 ⊆ written c.directory config.workers later config.output)
    (hshuffle : "reduce-input" ∈ later) (hreduce : "reduce-output" ∈ later) :
    Touched (written c.directory config.workers later config.output) (HasFiles.files c.mapped.2)
      c.combined :=
  (c.touched_shuffled.mono (files_subset_written hshuffle)).trans
    (c.touched_of_shuffled h hnamed hnames hreduce)

theorem names_mapped (h : OutputsOnly named start) (hnamed : named s = []) {later : List String}
    (hlater : "map-output" ∈ later) :
    named c.mapped.2 ⊆ written c.directory config.workers later config.output :=
  List.Subset.trans (c.rested_mapped h hnamed).2.names (files_subset_written hlater)

/-- What is written when the input has been dealt out. -/
theorem touched_of_sharded (h : OutputsOnly named start) (hnamed : named s = []) :
    Touched (written c.directory config.workers ["map-output", "reduce-input", "reduce-output"]
      config.output) c.sharded c.combined := by
  have hmapped := (c.rested_mapped h hnamed).2.touched
  exact (hmapped.mono (files_subset_written (by simp))).trans
    (c.touched_of_mapped h hnamed (c.names_mapped h hnamed (by simp)) (by simp) (by simp))

/-- The output is apart from the intermediate files in the end as it was at the beginning. -/
theorem separate_output (h : OutputsOnly named start) (hnamed : named s = [])
    (houtput : OutputApart config (HasFiles.files s)) {stage : String}
    (hstage : stage ∈ JobLayout.stages) :
    ∀ path ∈ files c.directory config.workers stage, c.combined.Separate config.output path := by
  intro path hpath
  have hprepared := houtput _ _ _ c.prepare_eq path (files_subset_intermediate _ _ hstage hpath)
  exact (c.touched_of_sharded h hnamed).separate
    ((c.touched_sharded h.toConfined).separate hprepared)

theorem shard_counts (h : Confined named start) (hinput : InputApart config (HasFiles.files s)) :
    c.prepared.LineCount config.input report.shardLines.sum
      ∧ List.Forall₂ c.sharded.LineCount (files c.directory config.workers "map-input")
        report.shardLines := by
  refine Shard.run_counts (fun path hpath => ?_)
    (JobLayout.pairwise_separate_files _ _ _ (by decide)) (c.shard_run h)
  exact hinput _ _ _ c.prepare_eq path (files_subset_intermediate _ _ (by decide) hpath)

theorem shuffle_counts :
    (∃ counts, List.Forall₂ (HasFiles.files c.mapped.2).LineCount
          (files c.directory config.workers "map-output") counts
        ∧ counts.sum = report.partitionRecords.sum)
      ∧ List.Forall₂ c.shuffled.LineCount (files c.directory config.workers "reduce-input")
        report.partitionRecords :=
  Shuffle.run_counts (fun _ hmapped _ hshuffled => JobLayout.separate_of_mem_files _ (by decide)
    (by decide) (by decide) hmapped hshuffled)
    (JobLayout.pairwise_separate_files _ _ _ (by decide)) c.shuffle_eq

theorem combine_counts (h : OutputsOnly named start) (hnamed : named s = [])
    (houtput : OutputApart config (HasFiles.files s)) :
    (∃ sizes, List.Forall₂ (HasFiles.files c.closed.2).Size
          (files c.directory config.workers "reduce-output") sizes
        ∧ sizes.sum = report.outputBytes)
      ∧ c.combined.Size config.output report.outputBytes := by
  refine Combine.intoFile_counts (fun path hpath => ?_) c.combine_eq
  have hapart := c.separate_output h hnamed houtput (by decide) path hpath
  exact (c.touched_combined.symm.separate hapart).symm

include c in
theorem states_timings : report.timings.map StateTiming.state
    = [.sharding, .mapping, .shuffling, .reducing, .combining] := by
  have hentered : .pending ∉ [JobState.sharding, .mapping, .shuffling, .reducing, .combining] := by
    decide
  rw [c.timings_eq]
  exact JobProgress.timings_through hentered (by decide)

/-- **Agreement.** The report of a job that succeeds agrees with its files, the map outputs being those
that its shuffle found. -/
theorem agrees (h : OutputsOnly named start) (hnamed : named s = [])
    (hinput : InputApart config (HasFiles.files s))
    (houtput : OutputApart config (HasFiles.files s)) :
    Agrees report config (JobLayout.within c.directory config.workers) c.prepared
      (HasFiles.files c.mapped.2) c.combined := by
  obtain ⟨hlines, hshards⟩ := c.shard_counts h.toConfined hinput
  obtain ⟨⟨counts, hmapped, hcounts⟩, hpartitions⟩ := c.shuffle_counts
  obtain ⟨⟨sizes, hsizes, hbytes⟩, hsize⟩ := c.combine_counts h hnamed houtput
  have hshuffled : Touched (written c.directory config.workers ["map-output", "reduce-output"]
      config.output) c.shuffled c.combined :=
    c.touched_of_shuffled h hnamed (c.names_mapped h hnamed (by simp)) (by simp)
  have hcombined : Touched (written c.directory config.workers [] config.output)
      (HasFiles.files c.closed.2) c.combined := c.touched_combined
  exact
    { length_shardLines := by rw [← hshards.length_eq, JobLayout.length_files]
      length_partitionRecords := by rw [← hpartitions.length_eq, JobLayout.length_files]
      input := by rwa [c.inputLines_eq, JobReport.total_eq_sum]
      inputLines := by rw [c.inputLines_eq, JobReport.total_eq_sum]
      mapInputs := measures_kept hshards (by decide) (c.separate_output h hnamed houtput (by decide))
        (c.touched_of_sharded h hnamed) (by decide) (by decide)
      mapOutputs := ⟨counts, hmapped, by rw [c.shuffledRecords_eq, JobReport.total_eq_sum, hcounts]⟩
      reduceInputs := measures_kept hpartitions (by decide)
        (c.separate_output h hnamed houtput (by decide)) hshuffled (by decide) (by decide)
      shuffledRecords := by rw [c.shuffledRecords_eq, JobReport.total_eq_sum]
      reduceOutputs := ⟨sizes, measures_kept hsizes (by decide)
        (c.separate_output h hnamed houtput (by decide)) hcombined (by decide) (by decide),
        hbytes.symm⟩
      output := hsize
      timings := c.states_timings }

/-- If the workers have nothing left to write when the map phase is over, the map outputs are in the
end what the shuffle found. -/
theorem agrees_of_settles (h : OutputsOnly named start) (hsettles : Settles ω named)
    (hnamed : named s = []) (hinput : InputApart config (HasFiles.files s))
    (houtput : OutputApart config (HasFiles.files s)) :
    Agrees report config (JobLayout.within c.directory config.workers) c.prepared c.combined
      c.combined := by
  have hagrees := c.agrees h hnamed hinput houtput
  obtain ⟨counts, hmapped, hcounts⟩ := hagrees.mapOutputs
  have hnames : named c.mapped.2 ⊆ written c.directory config.workers
      ["reduce-input", "reduce-output"] config.output := by
    rw [hsettles _ _ _ _ _ _ _ c.map_eq]
    exact List.nil_subset _
  have hkept := measures_kept hmapped (by decide) (c.separate_output h hnamed houtput (by decide))
    (c.touched_of_mapped h hnamed hnames (by simp) (by simp)) (by decide) (by decide)
  exact { hagrees with mapOutputs := ⟨counts, hkept, hcounts⟩ }

theorem files_left (h : Confined named start) :
    HasFiles.files s' = cleanUp c.directory c.passing c.combined := by
  have hleft := congrArg HasFiles.files c.left_eq
  rwa [h.files_setFiles, h.files_setFiles] at hleft

/-- The input is counted as it was before the job. -/
theorem inputLines_of_hasLines (h : c.prepared.LineCount config.input report.inputLines)
    {lines : List Bytes} (hlines : (HasFiles.files s).HasLines config.input lines) :
    report.inputLines = lines.length :=
  ((prepared_of_eq_ok c.prepare_eq).grown.hasLines hlines |>.length_eq h).symm

end Course

/-- **Accounts.** The report of a job that succeeds tells what is in its files. All but the map outputs
are as told when the job is over, before a passing directory is removed; the map outputs are as told
when the shuffle finds them, and in the end too if the workers have nothing left to write by then. The
input has as many lines as told before the job, even if the output takes its place. -/
theorem run_accounts (start : Nat → σ → Except WorkerError ω × σ) (clock : JobState → Duration)
    (config : JobConfig) (s s' : σ) (report : JobReport) (named : σ → List Path)
    (hworkers : OutputsOnly named start) (hnamed : named s = [])
    (hinput : InputApart config (HasFiles.files s))
    (houtput : OutputApart config (HasFiles.files s))
    (hrun : run start clock config s = (.ok report, s')) :
    ∃ c : Course start clock config s report s',
      Agrees report config (JobLayout.within c.directory config.workers) c.prepared
          (HasFiles.files c.mapped.2) c.combined
        ∧ (Settles ω named → Agrees report config (JobLayout.within c.directory config.workers)
          c.prepared c.combined c.combined)
        ∧ (∀ lines, (HasFiles.files s).HasLines config.input lines →
          report.inputLines = lines.length)
        ∧ HasFiles.files s' = cleanUp c.directory c.passing c.combined := by
  obtain ⟨c⟩ := exists_course hrun
  have hagrees := c.agrees hworkers hnamed hinput houtput
  refine ⟨c, hagrees, fun hsettles => ?_, fun lines hlines => ?_, ?_⟩
  · exact c.agrees_of_settles hworkers hsettles hnamed hinput houtput
  · exact c.inputLines_of_hasLines hagrees.input hlines
  · exact c.files_left hworkers.toConfined

/-- A text, and files where a job of two workers has its map outputs and its reduce outputs. -/
def fourOutputs : FileTree :=
  ⟨[], [([], .directory), ([Bytes.ofString "text"], .file (Bytes.ofString "a\n\nb")),
    ([Bytes.ofString "work"], .directory),
    ([Bytes.ofString "work", Bytes.ofString "map-output-0"], .file (Bytes.ofString "b 1\na 2")),
    ([Bytes.ofString "work", Bytes.ofString "map-output-1"], .file (Bytes.ofString "a 3\n")),
    ([Bytes.ofString "work", Bytes.ofString "reduce-output-0"], .file (Bytes.ofString "b 1")),
    ([Bytes.ofString "work", Bytes.ofString "reduce-output-1"], .file (Bytes.ofString "a 5\n"))]⟩

/-- The output takes the place of the input. -/
def inPlace : JobConfig where
  workers := 2
  workers_pos := Nat.two_pos
  program := []
  arguments := []
  input := Bytes.ofString "text"
  output := Bytes.ofString "text"
  taskTimeout := none
  workdir := some (Bytes.ofString "work")

/-- A worker that says that it has done its two tasks, and leaves the files as they are. -/
def boastful : Launch :=
  .script ⟨[], List.replicate 2 ⟨false, false, Bytes.ofString "ok\n", none, false⟩, [], 0, none⟩

/-- The timings by a clock that stands still. -/
def noTime : List StateTiming :=
  [⟨.sharding, 0⟩, ⟨.mapping, 0⟩, ⟨.shuffling, 0⟩, ⟨.reducing, 0⟩, ⟨.combining, 0⟩]

def inPlaceReport : JobReport :=
  ⟨2, 3, [2, 1], 3, [1, 2], 7, noTime⟩

theorem prepare_fourOutputs : prepare inPlace.workdir fourOutputs
    = .ok (Bytes.ofString "work", false, fourOutputs) := by
  decide +kernel

theorem outputApart_fourOutputs : OutputApart inPlace fourOutputs := by
  intro directory passing t hprepare
  obtain ⟨rfl, hrest⟩ := Prod.mk.inj (Except.ok.inj (hprepare.symm.trans prepare_fourOutputs))
  obtain ⟨rfl, rfl⟩ := Prod.mk.inj hrest
  decide +kernel

theorem run_accounts_fourOutputs :
    ∃ t, run boastful.start (fun _ => 0) inPlace fourOutputs = (.ok inPlaceReport, t)
      ∧ Agrees inPlaceReport inPlace (JobLayout.within (Bytes.ofString "work") 2) fourOutputs t t := by
  have hended : (run boastful.start (fun _ => 0) inPlace fourOutputs).1 = .ok inPlaceReport := by
    decide +kernel
  rcases hrun : run boastful.start (fun _ => 0) inPlace fourOutputs with ⟨outcome, t⟩
  rw [hrun] at hended
  obtain rfl := hended
  obtain ⟨c, -, hagrees, -, hleft⟩ := run_accounts boastful.start (fun _ => 0) inPlace fourOutputs t
    inPlaceReport _ boastful.outputsOnly rfl outputApart_fourOutputs outputApart_fourOutputs hrun
  obtain ⟨hdirectory, hrest⟩ :=
    Prod.mk.inj (Except.ok.inj (c.prepare_eq.symm.trans prepare_fourOutputs))
  obtain ⟨hpassing, hprepared⟩ := Prod.mk.inj hrest
  rw [hpassing, cleanUp_given] at hleft
  have hsame := hagrees fun _ _ _ _ _ _ _ _ => rfl
  rw [hdirectory, hprepared, ← hleft] at hsame
  exact ⟨t, rfl, hsame⟩

end Job

end MapReduce
