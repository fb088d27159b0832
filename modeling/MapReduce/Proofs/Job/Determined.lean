import MapReduce.Proofs.Handover
import MapReduce.Proofs.Job.Failure
import MapReduce.Proofs.Job.Leftovers
import MapReduce.Proofs.Pool.Crew
import MapReduce.Proofs.WordCountJob

/-!
# The result depends only on the input

Every file of a job is emptied before it is read, and no task reads what another task of its phase
writes. So neither the files that earlier runs have left in their places nor the order in which the
workers carry out their tasks shows in the result of a job.
-/

namespace MapReduce

open CommandLine (WorkerStart)
open FileTree (SameBut Touched Variant)
open Pool (Crew CarriedOut)

/-- A stage that reads only its inputs succeeds on both trees, with one result, or on neither. -/
theorem FileTree.Variant.stage {ε α : Type} (f : FileTree → Except ε α × FileTree)
    {inputs outputs : List Path}
    (hf : ∀ {A : Set Location} {t t' t₁ : FileTree} {a : α}, Variant A t t' →
      t.placesOf inputs ⊆ A → f t = (.ok a, t₁) →
      ∃ t₁', f t' = (.ok a, t₁') ∧ Variant (A ∪ t.placesOf outputs) t₁ t₁')
    {A : Set Location} {t t' : FileTree} (h : Variant A t t') (hinputs : t.placesOf inputs ⊆ A) :
    (∃ a t₁ t₁', f t = (.ok a, t₁) ∧ f t' = (.ok a, t₁') ∧ Variant (A ∪ t.placesOf outputs) t₁ t₁')
      ∨ ∃ e t₁ e' t₁', f t = (.error e, t₁) ∧ f t' = (.error e', t₁') := by
  rcases hrun : f t with ⟨e | a, t₁⟩
  · rcases hrun' : f t' with ⟨e' | a', t₁'⟩
    · exact Or.inr ⟨e, t₁, e', t₁', rfl, rfl⟩
    · rw [← h.placesOf_eq] at hinputs
      obtain ⟨t₁, hback, -⟩ := hf h.symm hinputs hrun'
      rw [hrun] at hback
      cases hback
  · obtain ⟨t₁', hrun', h₁⟩ := hf h hinputs hrun
    exact Or.inl ⟨a, t₁, t₁', rfl, hrun', h₁⟩

namespace Job

/-- How far two runs have come: the trees agree at these places, and paths lead where they led to
when the runs began. -/
structure Abreast (origin : FileTree) (agreed : Set Location) (t t' : FileTree) : Prop where
  variant : Variant agreed t t'
  placesOf : ∀ paths, t.placesOf paths = origin.placesOf paths

section

variable {ω ω' σ σ' : Type} [HasFiles σ] [HasFiles σ']

/-- Two runs have both failed, in one phase, or both succeeded, with related results. -/
inductive Concur {α : Type} (related : α → α → FileTree → FileTree → Prop) :
    Outcome JobError α × σ → Outcome JobError α × σ' → Prop where
  | ok {a a' : α} {s : σ} {s' : σ'} (h : related a a' (HasFiles.files s) (HasFiles.files s')) :
      Concur related (.ok a, s) (.ok a', s')
  | failed {e e' : JobError} {s : σ} {s' : σ'} (h : e'.phase = e.phase) :
      Concur related (.failed e, s) (.failed e', s')

/-- The pool has failed, or it has serving workers that can start a phase. -/
def Closable (how : WorkerStart) (ready : Pool ω → σ → Prop) (p : Pool ω) (s : σ) : Prop :=
  p.state = .failed ∨ (∃ runner, how = .serving runner) ∧ ready p s

/-- What two runs have in common while their pools are open. -/
inductive PoolsAbreast {ε α : Type} (same : ε → ε → Prop) (alike : α → α → Prop) (how : WorkerStart)
    (ready : Pool ω → σ → Prop) (ready' : Pool ω' → σ' → Prop) (origin : FileTree)
    (agreed : Set Location) :
    Outcome ε α × Pool ω × σ → Outcome ε α × Pool ω' × σ' → Prop where
  | ok {a a' : α} {p : Pool ω} {p' : Pool ω'} {s : σ} {s' : σ'} (halike : alike a a')
      (hserving : ∃ runner, how = .serving runner) (hready : ready p s) (hready' : ready' p' s')
      (h : Abreast origin agreed (HasFiles.files s) (HasFiles.files s')) :
      PoolsAbreast same alike how ready ready' origin agreed (.ok a, p, s) (.ok a', p', s')
  | failed {e e' : ε} {p : Pool ω} {p' : Pool ω'} {s : σ} {s' : σ'} (hsame : same e e')
      (hclosable : Closable how ready p s) (hclosable' : Closable how ready' p' s') :
      PoolsAbreast same alike how ready ready' origin agreed (.failed e, p, s) (.failed e', p', s')

variable [Worker ω σ] [Worker ω' σ'] {program : Path} {arguments : List Bytes} {how : WorkerStart}
  {start : Nat → σ → Except WorkerError ω × σ} {start' : Nat → σ' → Except WorkerError ω' × σ'}
  {calm : σ → Prop} {calm' : σ' → Prop} {ready : Nat → Pool ω → σ → Prop}
  {ready' : Nat → Pool ω' → σ' → Prop} {n : Nat} {p : Pool ω} {p' : Pool ω'} {s : σ} {s' : σ'}
  {origin : FileTree} {A : Set Location} {config : JobConfig}

/-! ### Pools -/

/-- The tasks of a phase, in the two orders in which two runs have carried them out. -/
theorem Abreast.runEach {t t' : FileTree} {inputs outputs : List Path}
    (h : Abreast origin A t t') (kind : TaskKind) (hapart : t.Apart inputs outputs)
    (hlength : inputs.length = outputs.length) (hA : origin.placesOf inputs ⊆ A)
    (runner : TaskRunner) {tasks tasks' : List Task}
    (hperm : tasks.Perm (tasksOf kind inputs outputs))
    (hperm' : tasks'.Perm (tasksOf kind inputs outputs)) :
    (AllOk (runner.runEach t' tasks').1 ↔ AllOk (runner.runEach t tasks).1)
      ∧ (AllOk (runner.runEach t tasks).1 →
        Abreast origin (A ∪ origin.placesOf outputs) (runner.runEach t tasks).2
          (runner.runEach t' tasks').2) := by
  have hinputs : t.placesOf (tasks.map Task.input) ⊆ A := by
    refine (FileTree.placesOf_mono (hperm.map _).subset).trans ?_
    rw [map_input_tasksOf kind hlength, h.placesOf]
    exact hA
  have houtputs : t.placesOf (tasks.map Task.output) = origin.placesOf outputs := by
    rw [h.placesOf, ← map_output_tasksOf kind hlength]
    exact Set.Subset.antisymm (FileTree.placesOf_mono (hperm.map _).subset)
      (FileTree.placesOf_mono (hperm.map _).symm.subset)
  obtain ⟨hiff, hvariant⟩ := runner.runEach_anyOrder h.variant
    ((hapart.unrelated kind hlength).perm hperm) (hperm'.trans hperm.symm) hinputs
  rw [houtputs] at hvariant
  refine ⟨hiff, fun hok => ⟨hvariant hok, fun paths => ?_⟩⟩
  rw [(runner.variant_of_runEach t tasks).placesOf_eq, h.placesOf]

theorem runPhase_abreast (hcrew : Crew program arguments how start calm ready)
    (hcrew' : Crew program arguments how start' calm' ready') (hn : 0 < n) (hready : ready n p s)
    (hready' : ready' n p' s') (kind : TaskKind) {inputs outputs : List Path}
    (hinputs : inputs.length = n) (houtputs : outputs.length = n)
    (h : Abreast origin A (HasFiles.files s) (HasFiles.files s'))
    (hapart : (HasFiles.files s).Apart inputs outputs) (hA : origin.placesOf inputs ⊆ A) :
    PoolsAbreast (fun _ _ => True) (fun _ _ => True) how (ready n) (ready' n) origin
      (A ∪ origin.placesOf outputs)
      (p.runPhase kind inputs outputs s) (p'.runPhase kind inputs outputs s') := by
  have hends := hcrew.runPhase n p s kind inputs outputs hn hready hinputs houtputs
  have hends' := hcrew'.runPhase n p' s' kind inputs outputs hn hready' hinputs houtputs
  generalize p.runPhase kind inputs outputs s = result at hends
  generalize p'.runPhase kind inputs outputs s' = result' at hends'
  have hany := h.runEach kind hapart (hinputs.trans houtputs.symm) hA
  cases hends with
  | @ok runner tasks p₁ s₁ hserving hsendable hperm hok hfiles hready₁ =>
      cases hends' with
      | @ok runner' tasks' p₁' s₁' hserving' _ hperm' _ hfiles' hready₁' =>
          obtain rfl := WorkerStart.serving.inj (hserving.symm.trans hserving')
          refine .ok trivial ⟨runner, hserving⟩ hready₁ hready₁' ?_
          rw [hfiles, hfiles']
          exact (hany runner hperm hperm').2 hok
      | failed hcause' _ =>
          obtain ⟨tasks', hperm', hnot⟩ := hcause' runner hserving fun task htask =>
            hsendable task (hperm.mem_iff.mpr htask)
          exact absurd ((hany runner hperm hperm').1.mpr hok) hnot
  | failed hcause hstate =>
      cases hends' with
      | @ok runner' tasks' p₁' s₁' hserving' hsendable' hperm' hok' _ _ =>
          obtain ⟨tasks, hperm, hnot⟩ := hcause runner' hserving' fun task htask =>
            hsendable' task (hperm'.mem_iff.mpr htask)
          exact absurd ((hany runner' hperm hperm').1.mp hok') hnot
      | failed _ hstate' => exact .failed trivial (Or.inl hstate) (Or.inl hstate')

/-- Where the files of one stage are. -/
def stagePlaces (origin : FileTree) (directory : Path) (n : Nat) (stage : String) : Set Location :=
  origin.placesOf (JobLayout.files directory n stage)

/-- Where two runs agree when their phases are over, if they agreed at these places before. -/
def phasePlaces (origin : FileTree) (directory : Path) (n : Nat) (agreed : Set Location) :
    Set Location :=
  agreed ∪ stagePlaces origin directory n "map-output"
    ∪ stagePlaces origin directory n "reduce-input" ∪ stagePlaces origin directory n "reduce-output"

theorem Abreast.reduced {t t' : FileTree} {directory : Path}
    (h : Abreast origin (phasePlaces origin directory n A) t t') :
    t.placesOf (JobLayout.files directory n "reduce-output")
      ⊆ phasePlaces origin directory n A := by
  rw [h.placesOf]
  exact Set.subset_union_right

/-- At the end of a job there is no place left at which two runs could differ. -/
theorem mem_phasePlaces {output : Path} {q : Location} (directory : Path)
    (h : q ∈ A ∨ q ∈ origin.placesOf (output :: intermediate directory n)) :
    q ∈ phasePlaces origin directory n (A ∪ stagePlaces origin directory n "map-input")
      ∪ origin.placesOf [output] := by
  rcases h with h | ⟨path, hpath, hq⟩
  · simp [phasePlaces, h]
  · rcases List.mem_cons.mp hpath with rfl | hpath
    · exact Or.inr (FileTree.mem_placesOf (by simp) hq)
    · obtain ⟨stage, hstage, hpath⟩ := List.mem_flatMap.mp hpath
      have hmem : q ∈ stagePlaces origin directory n stage := ⟨path, hpath, hq⟩
      refine Or.inl ?_
      simp only [JobLayout.stages, List.mem_cons, List.not_mem_nil, or_false] at hstage
      rcases hstage with rfl | rfl | rfl | rfl <;> simp [phasePlaces, hmem]

/-- Records are routed in both runs or in neither. -/
theorem shuffle_abreast (hcrew : Crew program arguments how start calm ready)
    (hcrew' : Crew program arguments how start' calm' ready') {inputs : List Path}
    (outputs : List Path) (h : Abreast origin A (HasFiles.files s) (HasFiles.files s'))
    (hA : origin.placesOf inputs ⊆ A) :
    (∃ counts t₁ t₁', Shuffle.run keyHash inputs outputs (HasFiles.files s) = (.ok counts, t₁)
        ∧ Shuffle.run keyHash inputs outputs (HasFiles.files s') = (.ok counts, t₁')
        ∧ Abreast origin (A ∪ origin.placesOf outputs) (HasFiles.files (HasFiles.setFiles t₁ s))
          (HasFiles.files (HasFiles.setFiles t₁' s')))
      ∨ ∃ e t₁ e' t₁', Shuffle.run keyHash inputs outputs (HasFiles.files s) = (.error e, t₁)
        ∧ Shuffle.run keyHash inputs outputs (HasFiles.files s') = (.error e', t₁') := by
  have htouched := Shuffle.run_touched keyHash inputs outputs (HasFiles.files s)
  rw [← h.placesOf inputs] at hA
  rcases h.variant.stage (Shuffle.run keyHash inputs outputs)
    (fun h hA hrun => Shuffle.run_variant h hA hrun) hA with
    ⟨counts, t₁, t₁', hrun, hrun', h₁⟩ | hfailed
  · rw [hrun] at htouched
    rw [h.placesOf] at h₁
    refine Or.inl ⟨counts, t₁, t₁', hrun, hrun', ?_⟩
    rw [hcrew.files_setFiles, hcrew'.files_setFiles]
    exact ⟨h₁, fun paths => (htouched.placesOf_eq paths).trans (h.placesOf paths)⟩
  · exact Or.inr hfailed

/-- The numbers of records agree; the times need not. -/
def SameRecords (ended ended' : List Nat × JobProgress) : Prop :=
  ended'.1 = ended.1

theorem runPhases_abreast (hcrew : Crew program arguments how start calm ready)
    (hcrew' : Crew program arguments how start' calm' ready') (hn : 0 < n) (hready : ready n p s)
    (hready' : ready' n p' s') (directory : Path) (clock clock' : JobState → Duration)
    (progress progress' : JobProgress)
    (h : Abreast origin A (HasFiles.files s) (HasFiles.files s'))
    (hA : stagePlaces origin directory n "map-input" ⊆ A) :
    PoolsAbreast (fun e e' => e'.phase = e.phase) SameRecords how (ready n) (ready' n) origin
      (phasePlaces origin directory n A)
      (runPhases (JobLayout.within directory n) clock progress p s)
      (runPhases (JobLayout.within directory n) clock' progress' p' s') := by
  have hmap := runPhase_abreast hcrew hcrew' hn hready hready' .map
    (JobLayout.length_files directory n "map-input")
    (JobLayout.length_files directory n "map-output") h
    (JobLayout.apart_files _ directory n (by decide) (by decide) (by decide)) hA
  rw [runPhases, runPhases]
  simp only [JobLayout.within]
  generalize p.runPhase .map (JobLayout.files directory n "map-input")
    (JobLayout.files directory n "map-output") s = result at hmap
  generalize p'.runPhase .map (JobLayout.files directory n "map-input")
    (JobLayout.files directory n "map-output") s' = result' at hmap
  cases hmap with
  | failed _ hclosable hclosable' => exact .failed rfl hclosable hclosable'
  | @ok _ _ p₁ p₁' s₁ s₁' _ hserving hready₁ hready₁' h₁ =>
      rcases shuffle_abreast hcrew hcrew' (JobLayout.files directory n "reduce-input") h₁
        Set.subset_union_right with
        ⟨counts, t₂, t₂', hshuffle, hshuffle', h₂⟩ | ⟨e, t₂, e', t₂', hshuffle, hshuffle'⟩
      · simp only [hshuffle, hshuffle']
        have hreduce := runPhase_abreast hcrew hcrew' hn (hcrew.ready_setFiles n p₁ t₂ s₁ hready₁)
          (hcrew'.ready_setFiles n p₁' t₂' s₁' hready₁') .reduce
          (JobLayout.length_files directory n "reduce-input")
          (JobLayout.length_files directory n "reduce-output") h₂
          (JobLayout.apart_files _ directory n (by decide) (by decide) (by decide))
          Set.subset_union_right
        generalize p₁.runPhase .reduce (JobLayout.files directory n "reduce-input")
          (JobLayout.files directory n "reduce-output") (HasFiles.setFiles t₂ s₁) = result
          at hreduce
        generalize p₁'.runPhase .reduce (JobLayout.files directory n "reduce-input")
          (JobLayout.files directory n "reduce-output") (HasFiles.setFiles t₂' s₁') = result'
          at hreduce
        cases hreduce with
        | failed _ hclosable hclosable' => exact .failed rfl hclosable hclosable'
        | ok _ _ hready₃ hready₃' h₃ => exact .ok rfl hserving hready₃ hready₃' h₃
      · simp only [hshuffle, hshuffle']
        exact .failed rfl (Or.inr ⟨hserving, hcrew.ready_setFiles n p₁ t₂ s₁ hready₁⟩)
          (Or.inr ⟨hserving, hcrew'.ready_setFiles n p₁' t₂' s₁' hready₁'⟩)

theorem close_of_closable (hcrew : Crew program arguments how start calm ready)
    (h : Closable how (ready n) p s) : ∃ ws s', p.close s = (.ok (), ws, s') := by
  rcases h with hstate | ⟨⟨runner, hserving⟩, hready⟩
  · exact hcrew.close_failed p s hstate
  · obtain ⟨ws, s', hclose, -⟩ := hcrew.close_ready n p s runner hserving hready
    exact ⟨ws, s', hclose⟩

theorem runPool_concur (hcrew : Crew program arguments how start calm ready)
    (hcrew' : Crew program arguments how start' calm' ready') (hn : 0 < n) (hready : ready n p s)
    (hready' : ready' n p' s') (directory : Path) (clock clock' : JobState → Duration)
    (progress progress' : JobProgress)
    (h : Abreast origin A (HasFiles.files s) (HasFiles.files s'))
    (hA : stagePlaces origin directory n "map-input" ⊆ A) :
    Concur (fun ended ended' t t' =>
        SameRecords ended ended' ∧ Abreast origin (phasePlaces origin directory n A) t t')
      (runPool (JobLayout.within directory n) clock progress p s)
      (runPool (JobLayout.within directory n) clock' progress' p' s') := by
  have hphases := runPhases_abreast hcrew hcrew' hn hready hready' directory clock clock' progress
    progress' h hA
  rw [runPool, runPool]
  generalize runPhases (JobLayout.within directory n) clock progress p s = result at hphases
  generalize runPhases (JobLayout.within directory n) clock' progress' p' s' = result' at hphases
  cases hphases with
  | ok halike hserving hready₁ hready₁' h₁ =>
      obtain ⟨runner, hserving⟩ := hserving
      obtain ⟨ws, s₂, hclose, hfiles⟩ := hcrew.close_ready n _ _ runner hserving hready₁
      obtain ⟨ws', s₂', hclose', hfiles'⟩ := hcrew'.close_ready n _ _ runner hserving hready₁'
      simp only [hclose, hclose']
      refine .ok ⟨halike, ?_⟩
      rw [hfiles, hfiles']
      exact h₁
  | failed hphase hclosable hclosable' =>
      obtain ⟨ws, s₂, hclose⟩ := close_of_closable hcrew hclosable
      obtain ⟨ws', s₂', hclose'⟩ := close_of_closable hcrew' hclosable'
      simp only [hclose, hclose']
      exact .failed hphase

/-! ### Jobs -/

/-- The reports tell the same but for the times. -/
def SameCounts (report report' : JobReport) : Prop :=
  report' = { report with timings := report'.timings }

/-- Once the shards are written, a program is found in both trees or in neither. -/
theorem findProgram_iff (program : Path) (arguments : List Bytes) {places : Set Location}
    {t t' t₁ t₁' : FileTree} {paths : List Path} (h : SameBut places t t')
    (htouched : Touched paths t t₁) (htouched' : Touched paths t' t₁')
    (h₁ : Variant ({q | t'.get? q = t.get? q} ∪ t.placesOf paths) t₁ t₁') :
    Launch.findProgram program arguments t₁' = .ok ()
      ↔ Launch.findProgram program arguments t₁ = .ok () := by
  have hprogram : ∀ q, t₁'.get? q = some .workerProgram ↔ t₁.get? q = some .workerProgram := by
    intro q
    by_cases hq : q ∈ {q | t'.get? q = t.get? q} ∪ t.placesOf paths
    · rw [h₁.get?_of_mem q hq]
    · rw [Set.mem_union, not_or] at hq
      rw [htouched.get?_of_notMem hq.2,
        htouched'.get?_of_notMem (by rw [h.variant.placesOf_eq]; exact hq.2)]
      exact h.iff_of_not_file (by simp) q
  exact ⟨Launch.findProgram_variant h₁.symm fun q => (hprogram q).mp,
    Launch.findProgram_variant h₁ fun q => (hprogram q).mpr⟩

/-- Both pools open, on the files as they were, or neither does. -/
theorem openWith_concur (hcrew : Crew program arguments how start calm ready)
    (hcrew' : Crew program arguments how start' calm' ready') (hn : 0 < n) (hcalm : calm s)
    (hcalm' : calm' s')
    (hiff : Launch.findProgram program arguments (HasFiles.files s') = .ok ()
      ↔ Launch.findProgram program arguments (HasFiles.files s) = .ok ()) :
    (∃ p s₁ p' s₁', Pool.openWith n start s = (.ok p, s₁)
        ∧ Pool.openWith n start' s' = (.ok p', s₁') ∧ ready n p s₁ ∧ ready' n p' s₁'
        ∧ HasFiles.files s₁ = HasFiles.files s ∧ HasFiles.files s₁' = HasFiles.files s')
      ∨ ∃ e s₁ e' s₁', Pool.openWith n start s = (.failed e, s₁)
        ∧ Pool.openWith n start' s' = (.failed e', s₁') := by
  by_cases hfound : Launch.findProgram program arguments (HasFiles.files s) = .ok ()
  · obtain ⟨p, s₁, hopen, hready, hfiles⟩ := hcrew.openWith_found n s hn hcalm hfound
    obtain ⟨p', s₁', hopen', hready', hfiles'⟩ := hcrew'.openWith_found n s' hn hcalm'
      (hiff.mpr hfound)
    exact Or.inl ⟨p, s₁, p', s₁', hopen, hopen', hready, hready', hfiles, hfiles'⟩
  · obtain ⟨e, s₁, hopen⟩ := hcrew.openWith_missing n s hn hfound
    obtain ⟨e', s₁', hopen'⟩ := hcrew'.openWith_missing n s' hn (mt hiff.mp hfound)
    exact Or.inr ⟨e, s₁, e', s₁', hopen, hopen'⟩

theorem runWithin_concur (hcrew : Crew config.program config.arguments how start calm ready)
    (hcrew' : Crew config.program config.arguments how start' calm' ready') (hcalm : calm s)
    (hcalm' : calm' s') (directory : Path) (clock clock' : JobState → Duration)
    (progress progress' : JobProgress) {places : Set Location}
    (h : SameBut places (HasFiles.files s) (HasFiles.files s'))
    (hinput : ∀ q ∈ (HasFiles.files s).placesOf [config.input],
      (HasFiles.files s').get? q = (HasFiles.files s).get? q)
    (hplaces : places ⊆ (HasFiles.files s).placesOf
      (config.output :: intermediate directory config.workers)) :
    Concur (fun report report' t t' => SameCounts report report' ∧ Variant Set.univ t t')
      (runWithin directory start clock progress config s)
      (runWithin directory start' clock' progress' config s') := by
  have htouched := Shard.run_touched config.input
    (JobLayout.files directory config.workers "map-input") (HasFiles.files s)
  have htouched' := Shard.run_touched config.input
    (JobLayout.files directory config.workers "map-input") (HasFiles.files s')
  rw [runWithin, runWithin]
  simp only [JobLayout.within]
  rcases h.variant.stage (Shard.run config.input
      (JobLayout.files directory config.workers "map-input"))
    (fun h hA hrun => Shard.run_variant h hA hrun) hinput with
    ⟨shardLines, t₁, t₁', hshard, hshard', h₁⟩ | ⟨e, t₁, e', t₁', hshard, hshard'⟩
  · rw [hshard] at htouched
    rw [hshard'] at htouched'
    simp only [hshard, hshard']
    have hiff := findProgram_iff config.program config.arguments h htouched htouched' h₁
    have hopens := openWith_concur hcrew hcrew' config.workers_pos
      (hcrew.calm_setFiles t₁ s hcalm) (hcrew'.calm_setFiles t₁' s' hcalm')
    rw [hcrew.files_setFiles, hcrew'.files_setFiles] at hopens
    rcases hopens hiff with ⟨p, s₂, p', s₂', hopen, hopen', hready, hready', hfiles, hfiles'⟩
      | ⟨e, s₂, e', s₂', hopen, hopen'⟩
    · rw [← hfiles, ← hfiles'] at h₁
      have hpool := runPool_concur hcrew hcrew' config.workers_pos
        (hcrew.ready_withTaskTimeout _ p config.taskTimeout s₂ hready)
        (hcrew'.ready_withTaskTimeout _ p' config.taskTimeout s₂' hready') directory clock clock'
        ((progress.advance clock .sharding).advance clock .mapping)
        ((progress'.advance clock' .sharding).advance clock' .mapping)
        ⟨h₁, by rw [hfiles]; exact htouched.placesOf_eq⟩ Set.subset_union_right
      simp only [hopen, hopen', JobLayout.within] at hpool ⊢
      generalize runPool _ _ _ (p.withTaskTimeout config.taskTimeout) s₂ = result at hpool ⊢
      generalize runPool _ _ _ (p'.withTaskTimeout config.taskTimeout) s₂' = result' at hpool ⊢
      cases hpool with
      | failed hphase => exact .failed hphase
      | @ok ended ended' s₃ s₃' hended =>
          obtain ⟨counts, progress₁⟩ := ended
          obtain ⟨_, progress₁'⟩ := ended'
          obtain ⟨rfl, h₃⟩ := hended
          rcases h₃.variant.stage (Combine.intoFile
              (JobLayout.files directory config.workers "reduce-output") config.output)
            (fun h hA hrun => Combine.intoFile_variant h hA hrun) h₃.reduced with
            ⟨bytes, t₄, t₄', hcombine, hcombine', h₄⟩ | ⟨e, t₄, e', t₄', hcombine, hcombine'⟩
          · simp only [hcombine, hcombine']
            refine .ok ⟨rfl, ?_⟩
            rw [hcrew.files_setFiles, hcrew'.files_setFiles]
            rw [h₃.placesOf] at h₄
            exact h₄.mono fun q _ =>
              mem_phasePlaces directory ((h.get? q).imp_right fun hq => hplaces hq.1)
          · simp only [hcombine, hcombine']
            exact .failed rfl
    · simp only [hopen, hopen']
      exact .failed rfl
  · simp only [hshard, hshard']
    exact .failed rfl

theorem cleanUp_variant {t t' : FileTree} (h : Variant Set.univ t t') (directory : Path)
    (passing : Bool) (q : Location) :
    (cleanUp directory passing t').get? q = (cleanUp directory passing t).get? q := by
  have hget := h.get?_of_mem q trivial
  cases passing with
  | false => exact hget
  | true =>
      rcases hresolve : t.resolve directory with e | stop
      · rcases hresolve' : t'.resolve directory with e' | stop'
        · simp only [cleanUp, hresolve, hresolve']
          exact hget
        · rw [h.resolve, hresolve] at hresolve'
          cases hresolve'
      · rw [cleanUp_fresh hresolve, cleanUp_fresh ((h.resolve directory stop).mpr hresolve)]
        by_cases hq : stop <+: q
        · rw [FileTree.get?_removeAll_of_prefix t hq, FileTree.get?_removeAll_of_prefix t' hq]
        · rw [FileTree.get?_removeAll hq, FileTree.get?_removeAll hq, hget]

/-- The reports tell the same but for the times, and the trees hold the same. -/
def SameResult (report report' : JobReport) (t t' : FileTree) : Prop :=
  SameCounts report report' ∧ ∀ q, t'.get? q = t.get? q

theorem run_concur (hcrew : Crew config.program config.arguments how start calm ready)
    (hcrew' : Crew config.program config.arguments how start' calm' ready') (hcalm : calm s)
    (hcalm' : calm' s') (clock clock' : JobState → Duration) {directory : Path}
    {passing passing' : Bool} {t₀ t₀' : FileTree}
    (hprepare : prepare config.workdir (HasFiles.files s) = .ok (directory, passing, t₀))
    (hprepare' : prepare config.workdir (HasFiles.files s') = .ok (directory, passing', t₀'))
    (hsame : SameBut (t₀.placesOf (config.output :: intermediate directory config.workers))
      (HasFiles.files s) (HasFiles.files s'))
    (hinput : ∀ q ∈ t₀.placesOf [config.input],
      (HasFiles.files s').get? q = (HasFiles.files s).get? q) :
    Concur SameResult (run start clock config s) (run start' clock' config s') := by
  obtain ⟨hsame₀, rfl⟩ := prepare_sameBut hsame hprepare hprepare'
  obtain ⟨hdiff, -⟩ := prepare_sameBut hsame.diff hprepare hprepare'
  have hinput₀ : ∀ q ∈ t₀.placesOf [config.input], t₀'.get? q = t₀.get? q := fun q hq =>
    (hdiff.get? q).resolve_right fun hne => hne.1 (hinput q hq)
  have hfiles := hcrew.files_setFiles t₀ s
  have hfiles' := hcrew'.files_setFiles t₀' s'
  rw [← hfiles, ← hfiles'] at hsame₀ hinput₀
  have hwithin := runWithin_concur hcrew hcrew' (hcrew.calm_setFiles t₀ s hcalm)
    (hcrew'.calm_setFiles t₀' s' hcalm') directory clock clock'
    (.pending clock) (.pending clock') hsame₀ hinput₀ subset_rfl
  rw [run, run, hprepare, hprepare']
  dsimp only
  generalize runWithin directory start clock (.pending clock) config (HasFiles.setFiles t₀ s) = result
    at hwithin
  generalize runWithin directory start' clock' (.pending clock') config (HasFiles.setFiles t₀' s')
    = result' at hwithin
  cases hwithin with
  | failed hphase => exact .failed hphase
  | ok hended =>
      refine .ok ⟨hended.1, fun q => ?_⟩
      rw [hcrew.files_setFiles, hcrew'.files_setFiles]
      exact cleanUp_variant hended.2 directory _ q

end

/-- **The result depends only on the input.** Two runs of a job find trees that differ in the files
left at the places of its intermediate files and of its output, and their workers take turns in two
orders. If both make the directory and find the same input, they fail in the same phase, or both
succeed, with the same counts and the same files. -/
theorem run_determined {how : WorkerStart} {config : JobConfig} {directory : Path}
    {passing passing' : Bool} {t t' t₀ t₀' : FileTree} (schedule schedule' : Schedule)
    (clock clock' : JobState → Duration)
    (hprepare : prepare config.workdir t = .ok (directory, passing, t₀))
    (hprepare' : prepare config.workdir t' = .ok (directory, passing', t₀'))
    (hsame : SameBut (t₀.placesOf (config.output :: intermediate directory config.workers)) t t')
    (hinput : ∀ q ∈ t₀.placesOf [config.input], t'.get? q = t.get? q) :
    Concur SameResult
      (run (Workshop.start config.program config.arguments how) clock config
        (.ofFiles schedule t))
      (run (Workshop.start config.program config.arguments how) clock' config
        (.ofFiles schedule' t')) :=
  run_concur (Pool.crew_workshop config.program config.arguments how)
    (Pool.crew_workshop config.program config.arguments how) (Workshop.calm_ofFiles schedule t)
    (Workshop.calm_ofFiles schedule' t') clock clock' hprepare hprepare' hsame hinput

/-- The first shard and the result of a longer input are still there. -/
def twoWordsLater : FileTree :=
  (twoWords.put [Bytes.ofString "work", Bytes.ofString "map-input-0"]
    (.file (Bytes.ofString "a b\na\nb\n"))).put [Bytes.ofString "out"]
    (.file (Bytes.ofString "b 3\na 3\n"))

def inTurn : Schedule :=
  ⟨id, fun _ => .refl _⟩

def lastFirst : Schedule :=
  ⟨List.reverse, List.reverse_perm⟩

theorem run_determined_twoWords :
    Concur SameResult
      (run (Workshop.start twoWorkers.program twoWorkers.arguments
        (CommandLine.startWorker twoWorkers.arguments)) (fun _ => 0) twoWorkers
        (.ofFiles inTurn twoWords))
      (run (Workshop.start twoWorkers.program twoWorkers.arguments
        (CommandLine.startWorker twoWorkers.arguments)) (fun _ => 1) twoWorkers
        (.ofFiles lastFirst twoWordsLater)) := by
  have hprepare : prepare twoWorkers.workdir twoWords
      = .ok (Bytes.ofString "work", false, twoWords) := by decide +kernel
  have hprepare' : prepare twoWorkers.workdir twoWordsLater
      = .ok (Bytes.ofString "work", false, twoWordsLater) := by decide +kernel
  have hshard : [Bytes.ofString "work", Bytes.ofString "map-input-0"] ∈ twoWords.placesOf
      (twoWorkers.output :: intermediate (Bytes.ofString "work") twoWorkers.workers) :=
    ⟨Bytes.ofString "work/map-input-0", by decide +kernel, by decide +kernel⟩
  have hout : [Bytes.ofString "out"] ∈ twoWords.placesOf
      (twoWorkers.output :: intermediate (Bytes.ofString "work") twoWorkers.workers) :=
    FileTree.mem_placesOf List.mem_cons_self (by decide +kernel)
  have hsame : SameBut (twoWords.placesOf
      (twoWorkers.output :: intermediate (Bytes.ofString "work") twoWorkers.workers))
      twoWords twoWordsLater :=
    ((SameBut.refl _ _).leave hshard (Or.inl (by decide +kernel)) _).leave hout
      (Or.inl (by decide +kernel)) _
  have hinput : ∀ q ∈ twoWords.placesOf [twoWorkers.input],
      twoWordsLater.get? q = twoWords.get? q := by
    rintro q ⟨path, hpath, hq⟩
    obtain rfl := List.mem_singleton.mp hpath
    have hresolve : twoWords.resolve twoWorkers.input = .ok [Bytes.ofString "in"] := by
      decide +kernel
    obtain rfl := Except.ok.inj (hresolve.symm.trans hq)
    decide +kernel
  exact run_determined inTurn lastFirst _ _ hprepare hprepare' hsame hinput

/-- **Workers in turn.** The workers of `Launch.program` carry out a task as soon as it is sent, and
what a job computes is told of these elsewhere. With workers that take turns in any order instead,
the job fails in the same phase, or it succeeds with the same counts and the same files, so what is
told there goes for them as well. -/
theorem run_program_concur {config : JobConfig} {directory : Path} {passing passing' : Bool}
    {t t' t₀ t₀' : FileTree} (schedule : Schedule) (clock clock' : JobState → Duration)
    (hprepare : prepare config.workdir t = .ok (directory, passing, t₀))
    (hprepare' : prepare config.workdir t' = .ok (directory, passing', t₀'))
    (hsame : SameBut (t₀.placesOf (config.output :: intermediate directory config.workers)) t t')
    (hinput : ∀ q ∈ t₀.placesOf [config.input], t'.get? q = t.get? q) :
    Concur SameResult
      (run (Launch.program config.program config.arguments).start clock config t)
      (run (Workshop.start config.program config.arguments
        (CommandLine.startWorker config.arguments)) clock' config (.ofFiles schedule t')) :=
  run_concur (Pool.crew_program config.program config.arguments)
    (Pool.crew_workshop config.program config.arguments _) trivial
    (Workshop.calm_ofFiles schedule t') clock clock' hprepare hprepare' hsame hinput

end Job

end MapReduce
