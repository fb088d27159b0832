import MapReduce.Job

/-!
# A job step by step

The steps of a job are taken in one order, each when the one before it has succeeded. A job that fails
has failed in the first step that did, with the error of that step: what happens afterwards, when the
workers are stopped and the intermediate files removed, changes nothing about it.
-/

namespace MapReduce

/-- The step that is taken next when a step has succeeded. -/
def Phase.next? : Phase → Option Phase
  | .setup => some .sharding
  | .sharding => some .startup
  | .startup => some .map
  | .map => some .shuffle
  | .shuffle => some .reduce
  | .reduce => some .shutdown
  | .shutdown => some .combine
  | .combine => none

/-- Whether there are workers to be stopped when the step has failed. -/
def Phase.leavesWorkers : Phase → Bool
  | .map | .shuffle | .reduce => true
  | .setup | .sharding | .startup | .shutdown | .combine => false

namespace Job

variable {ω σ : Type}

/-- How far a job has come. -/
structure Progress (ω σ : Type) where
  world : σ
  directory : Path
  /-- Whether the directory is to be removed when the job ends. -/
  passing : Bool
  pool : Pool ω

def begin (s : σ) : Progress ω σ :=
  ⟨s, [], false, .ofWorkers []⟩

def Progress.layout (p : Progress ω σ) (config : JobConfig) : JobLayout :=
  JobLayout.within p.directory config.workers

def poolOutcome : PoolReply Unit → Outcome PhaseError Unit
  | .ok _ => .ok ()
  | .failed e => .failed (.pool e)
  | .abandoned => .abandoned

section

variable [Worker ω σ]

def Progress.afterPhase (p : Progress ω σ) (kind : TaskKind) (inputs outputs : List Path) :
    Outcome PhaseError Unit × Progress ω σ :=
  let (reply, pool, s) := p.pool.runPhase kind inputs outputs p.world
  (poolOutcome reply, { p with world := s, pool })

theorem afterPhase_eq {p : Progress ω σ} {kind : TaskKind} {inputs outputs : List Path}
    {reply : PoolReply Unit} {pool : Pool ω} {s' : σ}
    (h : p.pool.runPhase kind inputs outputs p.world = (reply, pool, s')) :
    p.afterPhase kind inputs outputs = (poolOutcome reply, { p with world := s', pool }) := by
  rw [Progress.afterPhase, h]

end

section

variable [HasFiles σ]

def Progress.files (p : Progress ω σ) : FileTree :=
  HasFiles.files p.world

def Progress.withFiles (p : Progress ω σ) (t : FileTree) : Progress ω σ :=
  { p with world := HasFiles.setFiles t p.world }

/-- What becomes of a step that works on the files alone. -/
def Progress.afterFiles {ε α : Type} (p : Progress ω σ) (cause : ε → PhaseError)
    (ended : Except ε α × FileTree) : Outcome PhaseError Unit × Progress ω σ :=
  match ended with
  | (.error e, t) => (.failed (cause e), p.withFiles t)
  | (.ok _, t) => (.ok (), p.withFiles t)

variable [Worker ω σ]

def step (start : Nat → σ → Except WorkerError ω × σ) (config : JobConfig) (p : Progress ω σ) :
    Phase → Outcome PhaseError Unit × Progress ω σ
  | .setup =>
    match prepare config.workdir p.files with
    | .error e => (.failed (.io e), p.withFiles (unprepared config.workdir p.files))
    | .ok (directory, passing, t) => (.ok (), { p.withFiles t with directory, passing })
  | .sharding => p.afterFiles .io (Shard.run config.input (p.layout config).mapInputs p.files)
  | .startup =>
    match Pool.openWith config.workers start p.world with
    | (.abandoned, s) => (.abandoned, { p with world := s })
    | (.failed e, s) => (.failed (.pool e), { p with world := s })
    | (.ok pool, s) => (.ok (), { p with world := s, pool := pool.withTaskTimeout config.taskTimeout })
  | .map => p.afterPhase .map (p.layout config).mapInputs (p.layout config).mapOutputs
  | .shuffle => p.afterFiles .shuffle
      (Shuffle.run keyHash (p.layout config).mapOutputs (p.layout config).reduceInputs p.files)
  | .reduce => p.afterPhase .reduce (p.layout config).reduceInputs (p.layout config).reduceOutputs
  | .shutdown =>
    let (reply, workers, s) := p.pool.close p.world
    (poolOutcome reply, { p with world := s, pool := { p.pool with workers } })
  | .combine => p.afterFiles .io
      (Combine.intoFile (p.layout config).reduceOutputs config.output p.files)

/-- `Reaches start config s phase p`: a job comes to a step, all steps before it having succeeded. -/
inductive Reaches (start : Nat → σ → Except WorkerError ω × σ) (config : JobConfig) (s : σ) :
    Phase → Progress ω σ → Prop where
  | begin : Reaches start config s .setup (begin s)
  | next {phase phase' : Phase} {p q : Progress ω σ} (hreaches : Reaches start config s phase p)
      (hstep : step start config p phase = (.ok (), q)) (hnext : phase.next? = some phase') :
      Reaches start config s phase' q

/-- Stops the workers if a failed step has left some. -/
def Progress.stopWorkers (q : Progress ω σ) (phase : Phase) : PoolReply Unit × σ :=
  if phase.leavesWorkers then ((q.pool.close q.world).1, (q.pool.close q.world).2.2)
  else (.ok (), q.world)

/-- What a job leaves behind whose last step was this. -/
def Progress.leave (q : Progress ω σ) : Phase → σ
  | .setup => q.world
  | phase =>
    let s := (q.stopWorkers phase).2
    HasFiles.setFiles (cleanUp q.directory q.passing (HasFiles.files s)) s

theorem leave_of_ne {phase : Phase} (h : phase ≠ .setup) (q : Progress ω σ) :
    q.leave phase = HasFiles.setFiles
      (cleanUp q.directory q.passing (HasFiles.files (q.stopWorkers phase).2))
      (q.stopWorkers phase).2 := by
  cases phase with
  | setup => exact absurd rfl h
  | _ => rfl

variable {start : Nat → σ → Except WorkerError ω × σ} {config : JobConfig} {s s' : σ}
  {p : Progress ω σ} {e : JobError}

theorem next?_ne_setup (phase : Phase) : phase.next? ≠ some .setup := by
  cases phase <;> simp [Phase.next?]

theorem Reaches.eq_begin (h : Reaches start config s .setup p) : p = Job.begin s := by
  cases h with
  | begin => rfl
  | next _ _ hnext => exact absurd hnext (next?_ne_setup _)

theorem step_setup {directory : Path} {passing : Bool} {t : FileTree}
    (h : prepare config.workdir p.files = .ok (directory, passing, t)) :
    step start config p .setup = (.ok (), { p.withFiles t with directory, passing }) := by
  rw [step, h]

theorem Reaches.prepared {phase : Phase} (h : Reaches start config s phase p)
    (hphase : phase ≠ .setup) : ∃ directory passing t,
      prepare config.workdir (HasFiles.files s) = .ok (directory, passing, t) := by
  induction h with
  | begin => exact absurd rfl hphase
  | @next phase phase' p q hreaches hstep hnext ih =>
      by_cases hsetup : phase = .setup
      · subst hsetup
        obtain rfl := hreaches.eq_begin
        rcases hprepare : prepare config.workdir (Job.begin s : Progress ω σ).files
          with e | ⟨directory, passing, t⟩
        · rw [step, hprepare] at hstep
          cases hstep
        · exact ⟨directory, passing, t, hprepare⟩
      · exact ih hsetup

/-- A job that came to a step and failed in it. -/
structure FailsAt (start : Nat → σ → Except WorkerError ω × σ) (config : JobConfig) (s : σ)
    (e : JobError) (p q : Progress ω σ) : Prop where
  reaches : Reaches start config s e.phase p
  failed : step start config p e.phase = (.failed e.source, q)

/-- Map, shuffle and reduce. -/
theorem runPhases_eq (hp : Reaches start config s .map p) (clock : JobState → Duration)
    (progress : JobProgress) :
    match runPhases (p.layout config) clock progress p.pool p.world with
    | (.ok _, pool, s') => Reaches start config s .shutdown { p with world := s', pool }
    | (.failed e, pool, s') =>
      e.phase.leavesWorkers ∧ ∃ p', FailsAt start config s e p' { p with world := s', pool }
    | (.abandoned, _, _) => True := by
  rw [runPhases]
  rcases hmap : p.pool.runPhase .map (p.layout config).mapInputs (p.layout config).mapOutputs p.world
    with ⟨_ | e | _, pool, s₁⟩
  · let p₁ : Progress ω σ := { p with world := s₁, pool }
    have hp₁ : Reaches start config s .shuffle p₁ := hp.next (afterPhase_eq hmap) rfl
    rcases hshuffle : Shuffle.run keyHash (p.layout config).mapOutputs (p.layout config).reduceInputs
      (HasFiles.files s₁) with ⟨e | counts, t⟩
    · simp only [hshuffle]
      exact ⟨rfl, p₁, hp₁, congrArg (p₁.afterFiles .shuffle) hshuffle⟩
    · let p₂ : Progress ω σ := p₁.withFiles t
      have hp₂ : Reaches start config s .reduce p₂ :=
        hp₁.next (congrArg (p₁.afterFiles .shuffle) hshuffle) rfl
      rcases hreduce : p₂.pool.runPhase .reduce (p₂.layout config).reduceInputs
        (p₂.layout config).reduceOutputs p₂.world with ⟨_ | e | _, pool', s₂⟩
      all_goals
        have hreduce' : pool.runPhase .reduce (p.layout config).reduceInputs
          (p.layout config).reduceOutputs (HasFiles.setFiles t s₁) = _ := hreduce
        simp only [hshuffle, hreduce']
      · exact hp₂.next (afterPhase_eq hreduce) rfl
      · exact ⟨rfl, p₂, hp₂, afterPhase_eq hreduce⟩
  · exact ⟨rfl, p, hp, afterPhase_eq hmap⟩
  · trivial

/-- A job that failed within its directory, and what it left when the workers had been stopped. -/
structure FailsWithin (start : Nat → σ → Except WorkerError ω × σ) (config : JobConfig) (s : σ)
    (e : JobError) (p q : Progress ω σ) (s' : σ) : Prop extends FailsAt start config s e p q where
  begun : e.phase ≠ .setup
  stopped : (q.stopWorkers e.phase).1 ≠ .abandoned
  left : (q.stopWorkers e.phase).2 = s'

theorem FailsAt.within {q : Progress ω σ} (h : FailsAt start config s e p q) (hbegun : e.phase ≠ .setup)
    (hworkers : e.phase.leavesWorkers = false) : FailsWithin start config s e p q q.world where
  toFailsAt := h
  begun := hbegun
  stopped := by simp [Progress.stopWorkers, hworkers]
  left := by simp [Progress.stopWorkers, hworkers]

/-- The phases, and the stopping of the workers. -/
theorem runPool_eq (hp : Reaches start config s .map p) (clock : JobState → Duration)
    (progress : JobProgress) :
    match runPool (p.layout config) clock progress p.pool p.world with
    | (.ok _, s') => ∃ pool, Reaches start config s .combine { p with world := s', pool }
    | (.failed e, s') => ∃ (p' : Progress ω σ) (pool : Pool ω) (s₁ : σ),
      FailsWithin start config s e p' { p with world := s₁, pool } s'
    | (.abandoned, _) => True := by
  have hphases := runPhases_eq hp clock progress
  rw [runPool]
  rcases hended : runPhases (p.layout config) clock progress p.pool p.world
    with ⟨counts | e | _, pool, s₁⟩
  · rw [hended] at hphases
    dsimp only at hphases ⊢
    rcases hclose : pool.close s₁ with ⟨_ | e | _, workers, s₂⟩
    · refine ⟨{ pool with workers }, hphases.next ?_ rfl⟩
      simp only [step, hclose, poolOutcome]
    · refine ⟨_, { pool with workers }, s₂, FailsAt.within ⟨hphases, ?_⟩ (by simp) rfl⟩
      simp only [step, hclose, poolOutcome]
    · trivial
  · rw [hended] at hphases
    obtain ⟨hworkers, p', hfails⟩ := hphases
    have hbegun : e.phase ≠ .setup := by
      intro hsetup
      simp [hsetup, Phase.leavesWorkers] at hworkers
    have hstop : ∀ reply workers s₂, pool.close s₁ = (reply, workers, s₂) →
        Progress.stopWorkers { p with world := s₁, pool } e.phase = (reply, s₂) := by
      intro reply workers s₂ hclose
      rw [Progress.stopWorkers, if_pos hworkers, hclose]
    dsimp only
    rcases hclose : pool.close s₁ with ⟨_ | e' | _, workers, s₂⟩
    · exact ⟨p', pool, s₁, hfails, hbegun, by simp [hstop _ _ _ hclose], by rw [hstop _ _ _ hclose]⟩
    · exact ⟨p', pool, s₁, hfails, hbegun, by simp [hstop _ _ _ hclose], by rw [hstop _ _ _ hclose]⟩
    · trivial
  · trivial

/-- Everything within the directory for intermediate files. -/
theorem runWithin_eq_failed (hp : Reaches start config s .sharding p) {clock : JobState → Duration}
    {progress : JobProgress}
    (h : runWithin p.directory start clock progress config p.world = (.failed e, s')) :
    ∃ (p' : Progress ω σ) (pool : Pool ω) (s₁ : σ),
      FailsWithin start config s e p' { p with world := s₁, pool } s' := by
  rw [runWithin] at h
  rcases hshard : Shard.run config.input (p.layout config).mapInputs p.files with ⟨e' | counts, t⟩
  all_goals
    have hshard' : Shard.run config.input (JobLayout.within p.directory config.workers).mapInputs
      (HasFiles.files p.world) = _ := hshard
    simp only [hshard'] at h
  · obtain ⟨rfl, rfl⟩ : (⟨.sharding, .io e'⟩ : JobError) = e ∧ HasFiles.setFiles t p.world = s' := by
      simpa using h
    exact ⟨p, p.pool, _, FailsAt.within ⟨hp, congrArg (p.afterFiles .io) hshard⟩ (by simp) rfl⟩
  · let p₁ : Progress ω σ := p.withFiles t
    have hp₁ : Reaches start config s .startup p₁ :=
      hp.next (congrArg (p.afterFiles .io) hshard) rfl
    rcases hopen : Pool.openWith config.workers start p₁.world with ⟨pool | e' | _, s₁⟩
    all_goals
      have hopen' : Pool.openWith config.workers start (HasFiles.setFiles t p.world) = _ := hopen
      simp only [hopen'] at h
    · let p₂ : Progress ω σ :=
        { p₁ with world := s₁, pool := pool.withTaskTimeout config.taskTimeout }
      have hp₂ : Reaches start config s .map p₂ := hp₁.next (by simp only [step, hopen, p₂]) rfl
      let progress₂ := (progress.advance clock .sharding).advance clock .mapping
      have hrun := runPool_eq hp₂ clock progress₂
      rcases hpool : runPool (p₂.layout config) clock progress₂ p₂.pool p₂.world
        with ⟨counts | e' | _, s₂⟩
      all_goals
        have hpool' : runPool (JobLayout.within p.directory config.workers) clock
          ((progress.advance clock .sharding).advance clock .mapping)
          (pool.withTaskTimeout config.taskTimeout) s₁ = _ := hpool
        simp only [hpool'] at h
        rw [hpool] at hrun
      · obtain ⟨pool', hp₃⟩ := hrun
        rcases hcombine : Combine.intoFile (p.layout config).reduceOutputs config.output
          (HasFiles.files s₂) with ⟨e' | bytes, t'⟩
        all_goals
          have hcombine' : Combine.intoFile (JobLayout.within p.directory config.workers).reduceOutputs
            config.output (HasFiles.files s₂) = _ := hcombine
          simp only [hcombine'] at h
        · obtain ⟨rfl, rfl⟩ :
              (⟨.combine, .io e'⟩ : JobError) = e ∧ HasFiles.setFiles t' s₂ = s' := by
            simpa using h
          exact ⟨_, pool', _, FailsAt.within ⟨hp₃, congrArg (Progress.afterFiles _ .io) hcombine⟩
            (by simp) rfl⟩
        · simp at h
      · obtain ⟨rfl, rfl⟩ : e' = e ∧ s₂ = s' := by simpa using h
        exact hrun
      · simp at h
    · obtain ⟨rfl, rfl⟩ : (⟨.startup, .pool e'⟩ : JobError) = e ∧ s₁ = s' := by simpa using h
      have hfails : FailsAt start config s ⟨.startup, .pool e'⟩ p₁ { p₁ with world := s₁ } :=
        ⟨hp₁, by simp only [step, hopen]⟩
      exact ⟨p₁, p.pool, s₁, hfails.within (by simp) rfl⟩
    · simp at h

/-- A job that fails has failed in the first step that did, with the error of that step. -/
theorem run_eq_failed {clock : JobState → Duration} (h : run start clock config s = (.failed e, s')) :
    ∃ p q, FailsAt start config s e p q ∧ (q.stopWorkers e.phase).1 ≠ .abandoned
      ∧ s' = q.leave e.phase := by
  rw [run] at h
  rcases hprepare : prepare config.workdir (HasFiles.files s) with e' | ⟨directory, passing, t⟩
  · obtain ⟨rfl, rfl⟩ : (⟨.setup, .io e'⟩ : JobError) = e
        ∧ HasFiles.setFiles (unprepared config.workdir (HasFiles.files s)) s = s' := by
      simpa [hprepare] using h
    refine ⟨begin s, (begin s).withFiles (unprepared config.workdir (HasFiles.files s)),
      ⟨.begin, ?_⟩, by simp [Progress.stopWorkers, Phase.leavesWorkers], rfl⟩
    have hprepare' : prepare config.workdir (begin s : Progress ω σ).files = .error e' := hprepare
    simp only [step, hprepare']
    rfl
  · let p : Progress ω σ := { (begin s).withFiles t with directory, passing }
    have hprepare' : prepare config.workdir (begin s : Progress ω σ).files
        = .ok (directory, passing, t) := hprepare
    have hp : Reaches start config s .sharding p :=
      Reaches.begin.next (step_setup hprepare') rfl
    simp only [hprepare, Prod.mk.injEq] at h
    rcases hwithin : runWithin directory start clock (.pending clock) config
      (HasFiles.setFiles t s) with ⟨ended, s₁⟩
    rw [hwithin] at h
    obtain ⟨rfl, rfl⟩ := h
    obtain ⟨p', pool, s₂, hfails⟩ := runWithin_eq_failed hp hwithin
    refine ⟨p', _, hfails.toFailsAt, hfails.stopped, ?_⟩
    rw [leave_of_ne hfails.begun, hfails.left]

end

end Job

end MapReduce
