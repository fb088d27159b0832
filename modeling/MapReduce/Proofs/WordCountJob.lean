import MapReduce.Job
import MapReduce.Proofs.Concatenation
import MapReduce.Proofs.Handover
import MapReduce.Proofs.Pool.Live
import MapReduce.Proofs.WordCount

/-!
# A job that counts words

On the bytes of a text, a job over serving workers leaves the counts of the words of the whole text,
partition after partition, whatever the number of workers is. On other bytes it fails while mapping.
-/

namespace MapReduce

open JobLayout (files Passed Roomy)

namespace WordCount

variable {n : Nat} {contents : Bytes} {text : List Char} {t : FileTree} {inputs : List Path}
  {hash : Bytes → Nat}

/-- The lines of all partitions, in the order in which a job leaves them. -/
def resultLines (hash : Bytes → Nat) (n : Nat) (ws : List Bytes) : List Bytes :=
  (List.range n).flatMap fun i => partitionLines hash n i ws

section Counting

variable {map : MapFunction} {f : ReduceFunction} {aux : Bytes} {words : Nat → List Bytes}
  {emitted : Nat → List Record}

theorem emits_shards (h : CountsShards map aux n contents words emitted)
    (hstored : List.Forall₂ (fun path bs => ∃ place, t.Stores path place bs) inputs
      ((List.range n).map fun i => shard n i contents)) :
    List.Forall₂ (MapTask.Emits map aux t) inputs ((List.range n).map emitted) := by
  rw [List.forall₂_map_right_iff] at hstored ⊢
  apply hstored.imp
  rintro path i ⟨place, hstores⟩
  exact ⟨place, shard n i contents, hstores, h.maps i _⟩

theorem not_emits_shards (h : FailsShard map aux n contents)
    (hstored : List.Forall₂ (fun path bs => ∃ place, t.Stores path place bs) inputs
      ((List.range n).map fun i => shard n i contents)) {recordss : List (List Record)} :
    ¬ List.Forall₂ (MapTask.Emits map aux t) inputs recordss := by
  intro hemits
  obtain ⟨i, hi, hfails⟩ := h
  have hmem : shard n i contents ∈ (List.range n).map fun i => shard n i contents :=
    List.mem_map_of_mem (List.mem_range.mpr hi)
  obtain ⟨path, hpath, place, hstores⟩ := exists_mem_of_forall₂ hstored hmem
  obtain ⟨records, -, place', contents', hstores', hmap⟩ := exists_mem_of_forall₂ hemits.flip hpath
  obtain rfl := Except.ok.inj (hstores.resolve.symm.trans hstores'.resolve)
  obtain rfl := Except.ok.inj (hstores.read.symm.trans hstores'.read)
  obtain ⟨e, herror⟩ := hfails (Bytes.ofString path.show)
  exact absurd (herror.symm.trans hmap) (by simp)

theorem writable_emitted (h : CountsShards map aux n contents words emitted) :
    ∀ records ∈ (List.range n).map emitted, ∀ r ∈ records, r.Writable := by
  intro records hrecords
  obtain ⟨i, -, rfl⟩ := List.mem_map.mp hrecords
  exact (h.counts i).writable

theorem reduces_owned (h : CountsShards map aux n contents words emitted) (hf : Workload.Sums f)
    (hroom : ((List.range n).flatMap words).length < countLimit)
    (hwritten : List.Forall₂ (MapTask.Written t) inputs ((List.range n).map fun i =>
      Shuffle.owned hash n i ((List.range n).map emitted).flatten)) :
    List.Forall₂ (ReduceTask.Reduces f aux t) inputs
      ((List.range n).map fun i => partitionLines hash n i ((List.range n).flatMap words)) := by
  have hcounts := Counts.flatMap h.counts (List.range n)
  rw [← List.flatMap_def, List.forall₂_map_right_iff] at hwritten
  rw [List.forall₂_map_right_iff]
  apply hwritten.imp
  intro path i hpath
  exact ⟨_, hpath, Utf8.isText_iff_decode.mp hcounts.isText_fileOf_owned,
    hcounts.reduced_owned hf aux hroom⟩

end Counting

theorem length_tokens_lt (htext : Utf8.decode contents = .ok text)
    (hsize : contents.length < countLimit) : (tokens text).length < countLimit := by
  calc (tokens text).length ≤ (Utf8.encode text).length := length_tokens_le text
    _ = contents.length := by rw [Utf8.encode_of_decode htext]
    _ < countLimit := hsize

end WordCount

namespace Job

open WordCount (CountsShards FailsShard resultLines tokens partitionLines)

variable {runner : TaskRunner} {config : JobConfig} {directory : Path} {n : Nat}
  {t t₀ t₁ : FileTree} {source place : Location} {contents : Bytes} {text : List Char}
  {pool : Pool (ProcessWorker AnyChild)} {words : Nat → List Bytes} {emitted : Nat → List Record}
  {ws : List Bytes}

/-! ### Phases on a ready pool -/

/-- A phase from the files of one stage to those of another runs its tasks one after the other. -/
theorem runPhase_files (hready : Pool.Ready runner n pool) (hdirectory : directory.Unblank)
    (kind : TaskKind) (stage stage' : String) (hstage : stage ∈ JobLayout.stages)
    (hstage' : stage' ∈ JobLayout.stages) (t : FileTree) :
    let ran := runner.runEach t (tasksOf kind (files directory n stage) (files directory n stage'))
    ∃ reply pool', pool.runPhase kind (files directory n stage) (files directory n stage') t
        = (reply, pool', ran.2)
      ∧ (AllOk ran.1 → reply = .ok () ∧ Pool.Ready runner n pool')
      ∧ (¬ AllOk ran.1 → (∃ e, reply = .failed e) ∧ pool'.state = .failed) := by
  have hsendable : ∀ path ∈ files directory n stage ++ files directory n stage',
      Command.isSendable path = true := by
    intro path hpath
    rcases List.mem_append.mp hpath with hpath | hpath
    · exact JobLayout.isSendable_of_mem_files hdirectory hstage hpath
    · exact JobLayout.isSendable_of_mem_files hdirectory hstage' hpath
  exact Pool.runPhase_ready hready (JobLayout.length_files directory n stage)
    (JobLayout.length_files directory n stage') hsendable t

theorem mapPhase_ready {emitted : List (List Record)} (hready : Pool.Ready runner n pool)
    (hdirectory : directory.Unblank) (hroomy : Roomy directory n t₀)
    (hpassed : Passed directory n ["map-input"] t₀ t)
    (hemits : List.Forall₂ (MapTask.Emits runner.workload.map runner.aux t)
      (files directory n "map-input") emitted)
    (hwritable : ∀ records ∈ emitted, ∀ r ∈ records, r.Writable) :
    ∃ pool' t', pool.runPhase .map (files directory n "map-input") (files directory n "map-output") t
        = (.ok (), pool', t')
      ∧ Pool.Ready runner n pool' ∧ Passed directory n ["map-output", "map-input"] t₀ t'
      ∧ List.Forall₂ (MapTask.Written t') (files directory n "map-output") emitted := by
  obtain ⟨hok, hpassed', hwritten⟩ := hroomy.mapped hpassed hemits hwritable
  obtain ⟨reply, pool', hphase, hdone, -⟩ :=
    runPhase_files hready hdirectory .map "map-input" "map-output" (by decide) (by decide) t
  obtain ⟨rfl, hready'⟩ := hdone hok
  exact ⟨pool', _, hphase, hready', hpassed', hwritten⟩

theorem reducePhase_ready {resultss : List (List Bytes)} (hready : Pool.Ready runner n pool)
    (hdirectory : directory.Unblank) (hroomy : Roomy directory n t₀)
    (hpassed : Passed directory n ["reduce-input", "map-output", "map-input"] t₀ t)
    (hreduces : List.Forall₂ (ReduceTask.Reduces runner.workload.reduce runner.aux t)
      (files directory n "reduce-input") resultss) :
    ∃ pool' t', pool.runPhase .reduce (files directory n "reduce-input")
        (files directory n "reduce-output") t = (.ok (), pool', t')
      ∧ Pool.Ready runner n pool' ∧ Passed directory n JobLayout.stages.reverse t₀ t'
      ∧ List.Forall₂ (fun path results => ∃ place, t'.Stores path place results.flatten)
          (files directory n "reduce-output") resultss := by
  obtain ⟨hok, hpassed', hstored⟩ := hroomy.reduced hpassed hreduces
  obtain ⟨reply, pool', hphase, hdone, -⟩ :=
    runPhase_files hready hdirectory .reduce "reduce-input" "reduce-output" (by decide) (by decide) t
  obtain ⟨rfl, hready'⟩ := hdone hok
  exact ⟨pool', _, hphase, hready', hpassed', hstored⟩

/-! ### The phases of a job that counts -/

/-- The shards lie where the map tasks look for them. -/
def Sharded (directory : Path) (n : Nat) (contents : Bytes) (t : FileTree) : Prop :=
  List.Forall₂ (fun path bs => ∃ place, t.Stores path place bs) (files directory n "map-input")
    ((List.range n).map fun i => WordCount.shard n i contents)

/-- If the map function counts words and the reduce function adds up, the phases leave the lines of
each partition. -/
theorem runPhases_counted (hready : Pool.Ready runner n pool) (hn : 0 < n)
    (hdirectory : directory.Unblank) (hroomy : Roomy directory n t₀)
    (hpassed : Passed directory n ["map-input"] t₀ t) (hsharded : Sharded directory n contents t)
    (hcounts : CountsShards runner.workload.map runner.aux n contents words emitted)
    (hsums : Workload.Sums runner.workload.reduce)
    (hroom : ((List.range n).flatMap words).length < countLimit)
    (clock : JobState → Duration) (progress : JobProgress) :
    ∃ ended pool' t',
      runPhases (JobLayout.within directory n) clock progress pool t = (.ok ended, pool', t')
      ∧ Pool.Ready runner n pool' ∧ Passed directory n JobLayout.stages.reverse t₀ t'
      ∧ List.Forall₂ (fun path results => ∃ place, t'.Stores path place results.flatten)
          (files directory n "reduce-output")
          ((List.range n).map fun i => partitionLines keyHash n i ((List.range n).flatMap words)) := by
  obtain ⟨pool₁, t₁, hmap, hready₁, hpassed₁, hwritten⟩ := mapPhase_ready hready hdirectory hroomy
    hpassed (WordCount.emits_shards hcounts hsharded) (WordCount.writable_emitted hcounts)
  obtain ⟨counts, t₂, hshuffle, hpassed₂, howned⟩ :=
    hroomy.shuffled keyHash hn hpassed₁ hwritten
  have hreduces := WordCount.reduces_owned hcounts hsums hroom howned
  obtain ⟨pool₃, t₃, hreduce, hready₃, hpassed₃, hstored⟩ :=
    reducePhase_ready hready₁ hdirectory hroomy hpassed₂ hreduces
  refine ⟨⟨counts, (progress.advance clock .shuffling).advance clock .reducing⟩, pool₃, t₃, ?_,
    hready₃, hpassed₃, hstored⟩
  simp only [runPhases, JobLayout.within, hmap, HasFiles.files, hshuffle, HasFiles.setFiles, hreduce]

/-- If the map function fails on a shard, the map phase fails. -/
theorem runPhases_failsShard (hready : Pool.Ready runner n pool) (hdirectory : directory.Unblank)
    (hsharded : Sharded directory n contents t)
    (hfails : FailsShard runner.workload.map runner.aux n contents)
    (clock : JobState → Duration) (progress : JobProgress) :
    ∃ e pool' t', runPhases (JobLayout.within directory n) clock progress pool t
        = (.failed ⟨.map, .pool e⟩, pool', t')
      ∧ pool'.state = .failed := by
  obtain ⟨reply, pool', hphase, -, hfailed⟩ :=
    runPhase_files hready hdirectory .map "map-input" "map-output" (by decide) (by decide) t
  have hnot : ¬ AllOk (runner.runEach t (tasksOf .map (files directory n "map-input")
      (files directory n "map-output"))).1 := by
    intro hok
    obtain ⟨recordss, hemits, -, -⟩ := MapTask.runEach_eq_ok (by simp)
      (JobLayout.apart_files t directory n (by decide) (by decide) (by decide)) rfl hok
    exact WordCount.not_emits_shards hfails hsharded hemits
  obtain ⟨⟨e, rfl⟩, hstate⟩ := hfailed hnot
  exact ⟨e, pool', _, by simp only [runPhases, JobLayout.within, hphase]; rfl, hstate⟩

/-! ### A whole job -/

theorem runPool_of_ready {layout : JobLayout} {clock : JobState → Duration} {progress : JobProgress}
    {ended : List Nat × JobProgress} {pool' : Pool (ProcessWorker AnyChild)}
    (hphases : runPhases layout clock progress pool t = (.ok ended, pool', t₁))
    (hready : Pool.Ready runner n pool') :
    runPool layout clock progress pool t = (.ok ended, t₁) := by
  obtain ⟨ws, hclose⟩ := Pool.close_ready hready t₁
  simp only [runPool, hphases, hclose]

theorem runPool_of_failed {layout : JobLayout} {clock : JobState → Duration}
    {progress : JobProgress} {e : JobError} {pool' : Pool (ProcessWorker AnyChild)}
    (hphases : runPhases layout clock progress pool t = (.failed e, pool', t₁))
    (hstate : pool'.state = .failed) :
    runPool layout clock progress pool t = (.failed e, t₁) := by
  obtain ⟨ws, hclose⟩ := Pool.close_of_kill hstate LiveWorker.kill_eq t₁
  simp only [runPool, hphases, hclose]

theorem findProgram_touched {program : Path} {arguments : List Bytes} {paths : List Path}
    (htouched : FileTree.Touched paths t t₁) (hpaths : ∀ p ∈ paths, t.Separate program p)
    (h : Launch.findProgram program arguments t = .ok ()) :
    Launch.findProgram program arguments t₁ = .ok () := by
  unfold Launch.findProgram at h ⊢
  split
  · next hnul => rwa [if_pos hnul] at h
  · next hnul =>
      rw [if_neg hnul] at h
      split
      · next hslash => rwa [if_pos hslash] at h
      · next hslash =>
          rw [if_neg hslash] at h
          obtain ⟨place, hopen, hprogram⟩ := bind_eq_ok.mp h
          refine bind_eq_ok.mpr ⟨place, htouched.openFile hopen hpaths, ?_⟩
          rw [htouched.get?_of_separate (FileTree.openFile_eq_ok hopen) hpaths]
          exact hprogram

/-- Nothing about the files stands in the way of a job whose intermediate files are in a
directory. -/
structure Workable (config : JobConfig) (directory : Path) (t : FileTree) (contents : Bytes)
    (place : Location) : Prop where
  roomy : Roomy directory config.workers t
  input : ∃ source, t.Stores config.input source contents
  input_apart : ∀ path ∈ files directory config.workers "map-input", t.Separate config.input path
  program : Launch.findProgram config.program config.arguments t = .ok ()
  program_apart : ∀ path ∈ files directory config.workers "map-input",
    t.Separate config.program path
  output : t.Creatable config.output place
  output_ordinary : t.get? place ≠ some .fullDevice
  output_apart : ∀ stage ∈ JobLayout.stages, ∀ path ∈ files directory config.workers stage,
    t.Separate config.output path

theorem start_ready (hprogram : Launch.findProgram config.program config.arguments t = .ok ())
    (hserving : CommandLine.startWorker config.arguments = .serving runner) (index : Nat) :
    ∃ w, (Launch.program config.program config.arguments).start index t = (.ok w, t)
      ∧ LiveWorker.Resting runner w :=
  ⟨_, by simp only [Launch.start, hprogram, LiveChild.start, hserving],
    LiveWorker.resting_ofChild runner index⟩

/-- Sharding leaves the shards where the map tasks look for them, and the workers start. -/
theorem begin_workable (h : Workable config directory t contents place)
    (hserving : CommandLine.startWorker config.arguments = .serving runner) :
    ∃ counts t₁ pool,
      Shard.run config.input (files directory config.workers "map-input") t = (.ok counts, t₁)
      ∧ Passed directory config.workers ["map-input"] t t₁
      ∧ Sharded directory config.workers contents t₁
      ∧ Pool.openWith config.workers (Launch.program config.program config.arguments).start t₁
          = (.ok pool, t₁)
      ∧ Pool.Ready runner config.workers pool := by
  obtain ⟨source, hinput⟩ := h.input
  obtain ⟨places, t₁, hrun, hplaces, hrew, hsharded⟩ := Shard.run_ordinary hinput
    h.input_apart (JobLayout.pairwise_separate_files t directory config.workers (by decide))
    (JobLayout.files_ne_nil directory config.workers_pos "map-input")
    (h.roomy.ordinary "map-input" (by decide))
  rw [JobLayout.length_files] at hsharded
  have htouched := FileTree.Touched.of_forall₂ hplaces hrew
  have hprogram := findProgram_touched htouched h.program_apart h.program
  obtain ⟨pool, hopen, hready⟩ :=
    Pool.openWith_ready (start_ready hprogram hserving) config.workers_pos
  exact ⟨_, t₁, pool, hrun, htouched.mono (by simp), hsharded, hopen, hready⟩

theorem ready_withTaskTimeout (h : Pool.Ready runner n pool) (limit : Option Duration) :
    Pool.Ready runner n (pool.withTaskTimeout limit) :=
  ⟨h.state, h.length, h.resting⟩

/-- If the map function counts words and the reduce function adds up, a job leaves the lines of all
partitions in its output. -/
theorem runWithin_counted (clock : JobState → Duration) (progress : JobProgress)
    (hdirectory : directory.Unblank) (h : Workable config directory t contents place)
    (hserving : CommandLine.startWorker config.arguments = .serving runner)
    (hcounts : CountsShards runner.workload.map runner.aux config.workers contents words emitted)
    (hsums : Workload.Sums runner.workload.reduce)
    (hperm : ((List.range config.workers).flatMap words).Perm ws)
    (hroom : ws.length < countLimit) :
    ∃ report t' places,
      runWithin directory (Launch.program config.program config.arguments).start clock progress
        config t = (.ok report, t')
      ∧ t'.get? place = some (.file (resultLines keyHash config.workers ws).flatten)
      ∧ FileTree.Rewritten places t t' := by
  obtain ⟨shardLines, t₁, pool, hshard, hpassed, hsharded, hopen, hready⟩ :=
    begin_workable h hserving
  obtain ⟨⟨counts, progress'⟩, pool', t₂, hphases, hready', hpassed₂, hstored⟩ :=
    runPhases_counted (ready_withTaskTimeout hready config.taskTimeout) config.workers_pos
      hdirectory h.roomy hpassed hsharded hcounts hsums (by rwa [hperm.length_eq]) clock
      ((progress.advance clock .sharding).advance clock .mapping)
  have hpool := runPool_of_ready hphases hready'
  have hapart : ∀ p ∈ JobLayout.stages.reverse.flatMap (files directory config.workers),
      t.Separate config.output p := by
    intro p hp
    obtain ⟨stage, hstage, hp⟩ := List.mem_flatMap.mp hp
    exact h.output_apart stage (List.mem_reverse.mp hstage) p hp
  have hordinary : t₂.get? place ≠ some .fullDevice := by
    rw [FileTree.Touched.get?_of_separate hpassed₂ h.output.resolve hapart]
    exact h.output_ordinary
  obtain ⟨outputBytes, t₃, hcombine, hfile, hrew⟩ := Combine.intoFile_ordinary
    (List.forall₂_map_right_iff.mpr hstored) (FileTree.Touched.creatable hpassed₂ h.output) hordinary
    fun path hpath => FileTree.Touched.separate hpassed₂
      (h.output_apart "reduce-output" (by decide) path hpath).symm
  obtain ⟨places, -, hrew₂⟩ := hpassed₂
  rw [← List.flatten_flatten, ← List.flatMap_def] at hfile
  have hlines : ((List.range config.workers).flatMap fun i =>
      partitionLines keyHash config.workers i ((List.range config.workers).flatMap words))
      = resultLines keyHash config.workers ws :=
    List.flatMap_congr fun i _ => WordCount.partitionLines_eq_of_perm _ _ i hperm
  rw [hlines] at hfile
  have hrun : ∃ report, runWithin directory (Launch.program config.program config.arguments).start
      clock progress config t = (.ok report, t₃) := by
    simp only [JobLayout.within] at hpool
    exact ⟨_, by
      simp only [runWithin, JobLayout.within, HasFiles.files, HasFiles.setFiles, hshard, hopen, hpool,
        hcombine]
      rfl⟩
  obtain ⟨report, hreport⟩ := hrun
  exact ⟨report, t₃, places ++ [place], hreport, hfile,
    (hrew₂.mono (by simp)).trans (hrew.mono (by simp))⟩

theorem runWithin_failsShard (clock : JobState → Duration) (progress : JobProgress)
    (hdirectory : directory.Unblank) (h : Workable config directory t contents place)
    (hserving : CommandLine.startWorker config.arguments = .serving runner)
    (hfails : FailsShard runner.workload.map runner.aux config.workers contents) :
    ∃ e t',
      runWithin directory (Launch.program config.program config.arguments).start clock progress
        config t = (.failed e, t') ∧ e.phase = .map := by
  obtain ⟨shardLines, t₁, pool, hshard, -, hsharded, hopen, hready⟩ := begin_workable h hserving
  obtain ⟨e, pool', t₂, hphases, hstate⟩ :=
    runPhases_failsShard (ready_withTaskTimeout hready config.taskTimeout) hdirectory hsharded hfails
      clock ((progress.advance clock .sharding).advance clock .mapping)
  have hpool := runPool_of_failed hphases hstate
  simp only [JobLayout.within] at hpool
  refine ⟨⟨.map, .pool e⟩, t₂, ?_, rfl⟩
  simp only [runWithin, JobLayout.within, HasFiles.files, HasFiles.setFiles, hshard, hopen, hpool]

theorem runWithin_text (clock : JobState → Duration) (progress : JobProgress)
    (hdirectory : directory.Unblank) (h : Workable config directory t contents place)
    (hserving : CommandLine.startWorker config.arguments = .serving runner)
    (hworkload : runner.workload = WordCount.workload)
    (htext : Utf8.decode contents = .ok text) (hsize : contents.length < countLimit) :
    ∃ report t' places,
      runWithin directory (Launch.program config.program config.arguments).start clock progress
        config t = (.ok report, t')
      ∧ t'.get? place
          = some (.file (resultLines keyHash config.workers (tokens text)).flatten)
      ∧ FileTree.Rewritten places t t' := by
  obtain ⟨workload, aux⟩ := runner
  obtain rfl : workload = WordCount.workload := hworkload
  have hperm := WordCount.flatMap_shardTokens_perm config.workers_pos text
  rw [Utf8.encode_of_decode htext] at hperm
  exact runWithin_counted clock progress hdirectory h hserving
    (WordCount.countsShards_of_isText (Utf8.isText_iff_decode.mpr ⟨text, htext⟩) aux config.workers)
    Workload.sums_wordCount hperm (WordCount.length_tokens_lt htext hsize)

theorem runWithin_not_text (clock : JobState → Duration) (progress : JobProgress)
    (hdirectory : directory.Unblank) (h : Workable config directory t contents place)
    (hserving : CommandLine.startWorker config.arguments = .serving runner)
    (hworkload : runner.workload = WordCount.workload) (htext : ¬ Utf8.IsText contents) :
    ∃ e t',
      runWithin directory (Launch.program config.program config.arguments).start clock progress
        config t = (.failed e, t') ∧ e.phase = .map := by
  have hfails : FailsShard runner.workload.map runner.aux config.workers contents := by
    rw [hworkload]
    exact WordCount.failsShard_of_not_isText config.workers_pos htext _
  exact runWithin_failsShard clock progress hdirectory h hserving hfails

theorem unblank_of_prepare {workdir : Option Path} {passing : Bool}
    (hworkdir : ∀ path, workdir = some path → path.Unblank)
    (h : prepare workdir t = .ok (directory, passing, t₀)) : directory.Unblank := by
  cases workdir with
  | some path =>
      obtain ⟨made, -, hmade⟩ := bind_eq_ok.mp h
      obtain rfl := (Prod.mk.inj (Except.ok.inj hmade)).1
      exact hworkdir path rfl
  | none =>
      obtain ⟨⟨path, made⟩, hscratch, hmade⟩ := bind_eq_ok.mp h
      obtain rfl := (Prod.mk.inj (Except.ok.inj hmade)).1
      obtain ⟨root, -, hscratch⟩ := bind_eq_ok.mp hscratch
      obtain ⟨made', -, hscratch⟩ := bind_eq_ok.mp hscratch
      obtain rfl := (Prod.mk.inj (Except.ok.inj hscratch)).1
      have hroot : Path.Unblank FileTree.scratchRoot := Path.unblank_ofString (by decide)
      have hname : Path.Unblank (Bytes.ofString "mapReduce") := Path.unblank_ofString (by decide)
      exact hroot.join (hname.append (Path.unblank_showCount _))

theorem get?_cleanUp {passing : Bool}
    (h : passing = true → ∀ stop, t.resolve directory = .ok stop → ¬ stop <+: place) :
    (cleanUp directory passing t).get? place = t.get? place := by
  unfold cleanUp
  split
  · next stop hresolve => exact FileTree.get?_removeAll (h rfl stop hresolve)
  · rfl

/-- **Word count.** Over serving workers, a job on the bytes of a text succeeds and leaves the lines
of all partitions, one for each distinct word with its count in the whole text; which lines these
are does not depend on the number of workers. On other bytes it fails while mapping. -/
theorem run_wordCount {passing : Bool}
    (hprepare : prepare config.workdir t = .ok (directory, passing, t₀))
    (hworkdir : ∀ path, config.workdir = some path → path.Unblank)
    (hworkable : Workable config directory t₀ contents place)
    (hkept : passing = true → ∀ stop, t₀.resolve directory = .ok stop → ¬ stop <+: place)
    (hserving : CommandLine.startWorker config.arguments = .serving runner)
    (hworkload : runner.workload = WordCount.workload) (hsize : contents.length < countLimit)
    (clock : JobState → Duration) :
    match Utf8.decode contents with
    | .ok text => ∃ report t',
        run (Launch.program config.program config.arguments).start clock config t
            = (.ok report, t')
          ∧ t'.get? place
              = some (.file (resultLines keyHash config.workers (tokens text)).flatten)
          ∧ (resultLines keyHash config.workers (tokens text)).Perm
              ((tokens text).dedup.map fun w => Workload.countLine w ((tokens text).count w))
    | .error _ => ∃ e t',
        run (Launch.program config.program config.arguments).start clock config t
            = (.failed e, t') ∧ e.phase = .map := by
  have hdirectory := unblank_of_prepare hworkdir hprepare
  cases htext : Utf8.decode contents with
  | ok text =>
      obtain ⟨report, t', places, hwithin, hfile, hrew⟩ := runWithin_text clock
        (.pending clock) hdirectory hworkable hserving hworkload htext hsize
      refine ⟨report, cleanUp directory passing t', ?_, ?_,
        WordCount.flatMap_partitionLines_perm keyHash config.workers_pos (tokens text)⟩
      · simp only [run, HasFiles.files, HasFiles.setFiles, hprepare, hwithin]
      · rw [get?_cleanUp fun hpassing stop hstop =>
          hkept hpassing stop ((hrew.resolve directory stop).mp hstop), hfile]
  | error fault =>
      have hnot : ¬ Utf8.IsText contents := by
        rw [Utf8.isText_iff_decode, htext]
        simp
      obtain ⟨e, t', hwithin, hphase⟩ := runWithin_not_text clock (.pending clock) hdirectory
        hworkable hserving hworkload hnot
      refine ⟨e, cleanUp directory passing t', ?_, hphase⟩
      simp only [run, HasFiles.files, HasFiles.setFiles, hprepare, hwithin]

def twoWords : FileTree :=
  ⟨[], [([], .directory), ([Bytes.ofString "worker"], .workerProgram),
    ([Bytes.ofString "work"], .directory),
    ([Bytes.ofString "in"], .file (Bytes.ofString "b a\nb\n"))]⟩

def twoWorkers : JobConfig where
  workers := 2
  workers_pos := Nat.two_pos
  program := Bytes.ofString "/worker"
  arguments := []
  input := Bytes.ofString "in"
  output := Bytes.ofString "out"
  taskTimeout := none
  workdir := some (Bytes.ofString "work")

theorem workable_twoWords :
    Workable twoWorkers (Bytes.ofString "work") twoWords (Bytes.ofString "b a\nb\n")
      [Bytes.ofString "out"] where
  roomy := ⟨by decide +kernel, by decide +kernel⟩
  input := ⟨[Bytes.ofString "in"], by decide +kernel, by decide +kernel⟩
  input_apart := by decide +kernel
  program := by decide +kernel
  program_apart := by decide +kernel
  output := ⟨by decide +kernel, by decide +kernel, by decide +kernel⟩
  output_ordinary := by decide +kernel
  output_apart := by decide +kernel

theorem resultLines_twoWords :
    resultLines keyHash 2 (tokens "b a\nb\n".toList)
      = [Bytes.ofString "b 2\n", Bytes.ofString "a 1\n"] := by
  have hsorted : ∀ i ∈ List.range 2, partitionLines keyHash 2 i (tokens "b a\nb\n".toList)
      = ((tokens "b a\nb\n".toList).dedup.filter fun w => keyHash w % 2 = i).map fun w =>
          Workload.countLine w ((tokens "b a\nb\n".toList).count w) := by
    intro i hi
    rw [partitionLines, List.mergeSort_of_pairwise]
    revert i
    decide +kernel
  rw [resultLines, List.flatMap_congr hsorted]
  decide +kernel

theorem run_wordCount_twoWords :
    ∃ report t', run (Launch.program twoWorkers.program twoWorkers.arguments).start (fun _ => 0)
        twoWorkers twoWords = (.ok report, t')
      ∧ t'.get? [Bytes.ofString "out"] = some (.file (Bytes.ofString "b 2\na 1\n")) := by
  have hprepare : prepare twoWorkers.workdir twoWords
      = .ok (Bytes.ofString "work", false, twoWords) := by decide +kernel
  have hworkdir : ∀ path, twoWorkers.workdir = some path → path.Unblank := by
    rintro path ⟨⟩
    exact Path.unblank_ofString (by decide)
  have hserving : CommandLine.startWorker twoWorkers.arguments
      = .serving ⟨WordCount.workload, []⟩ := rfl
  have hjob := run_wordCount hprepare hworkdir workable_twoWords (by simp) hserving rfl
    (by decide +kernel) fun _ => 0
  have hdecode : Utf8.decode (Bytes.ofString "b a\nb\n") = .ok "b a\nb\n".toList :=
    Utf8.decode_encode _
  rw [hdecode] at hjob
  obtain ⟨report, t', hrun, hfile, -⟩ := hjob
  have hlines : resultLines keyHash twoWorkers.workers (tokens "b a\nb\n".toList)
      = [Bytes.ofString "b 2\n", Bytes.ofString "a 1\n"] := resultLines_twoWords
  refine ⟨report, t', hrun, ?_⟩
  rw [hfile, hlines]
  decide +kernel

end Job

end MapReduce
