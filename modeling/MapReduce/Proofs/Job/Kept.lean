import MapReduce.Proofs.Job.Steps
import MapReduce.Proofs.Layout
import MapReduce.Proofs.Pool.Idle

/-!
# What the steps of a job keep

Whenever a job comes to a step that needs its pool, the pool is idle, all of its workers are there
and all of them are at rest. What the calls to the workers keep, and the steps that work on the files
alone, therefore holds all through the job until the results are combined.
-/

namespace MapReduce

/-- Whether a pool is open when the step is taken. -/
def Phase.hasPool : Phase → Bool
  | .map | .shuffle | .reduce | .shutdown => true
  | .setup | .sharding | .startup | .combine => false

namespace Pool

variable {ω : Type}

/-- The pool can start a phase on `n` workers, all of them at rest. -/
structure Rested (rests : ω → Prop) (n : Nat) (p : Pool ω) : Prop where
  state : p.state = .idle
  length : p.workers.length = n
  rests : ∀ w ∈ p.workers, rests w

end Pool

namespace Job

variable {ω σ : Type}

/-- An error of a pool that comes from its workers. -/
def FairSource (fair : WorkerError → Prop) (source : PhaseError) : Prop :=
  ∀ e, source = .pool e → (∃ e', e = .worker e' ∧ fair e')
    ∨ ∃ errors, e = .shutdown errors ∧ ∀ e' ∈ errors, fair e'

/-- The state of a job that comes to a step after the setup. -/
structure Underway (rests : ω → Prop) (sound : σ → Prop) (config : JobConfig) (directory : Path)
    (passing : Bool) (phase : Phase) (p : Progress ω σ) : Prop where
  directory : p.directory = directory
  passing : p.passing = passing
  sound : sound p.world
  pool : phase.hasPool → p.pool.Rested rests config.workers

/-- What a step has done that was taken after the setup. -/
structure StepEnds (rests : ω → Prop) (sound : σ → Prop) (fair : WorkerError → Prop)
    (config : JobConfig) (directory : Path) (passing : Bool) (phase : Phase)
    (ended : Outcome PhaseError Unit × Progress ω σ) : Prop where
  directory : ended.2.directory = directory
  passing : ended.2.passing = passing
  sound : phase ≠ .combine → sound ended.2.world
  atRest : phase.leavesWorkers → ended.2.pool.AtRest rests
  source : ∀ source, ended.1 = .failed source → FairSource fair source
  pool : ended.1 = .ok () → ∀ phase', phase.next? = some phase' → phase'.hasPool →
    ended.2.pool.Rested rests config.workers

variable {tasks : Task → Prop} {rests works : ω → Prop} {sound : σ → Prop}
  {fair : WorkerError → Prop} {start : Nat → σ → Except WorkerError ω × σ} {config : JobConfig}
  {directory : Path} {passing : Bool} {p : Progress ω σ} {s : σ}

section

variable [Worker ω σ]

theorem stepEnds_afterPhase (h : Cycle tasks rests works sound fair) {phase : Phase} {kind : TaskKind}
    {inputs outputs : List Path} (hp : Underway rests sound config directory passing phase p)
    (hpool : phase.hasPool)
    (hfiles : ∀ file ∈ inputs.zip outputs, tasks ⟨kind, file.1, file.2⟩)
    (hinputs : inputs.length = config.workers) (houtputs : outputs.length = config.workers) :
    StepEnds rests sound fair config directory passing phase
      (p.afterPhase kind inputs outputs) := by
  have hrested := hp.pool hpool
  have hended := Pool.runPhase_cycle h hrested.state hrested.rests hp.sound hfiles
    (hinputs.trans hrested.length.symm) (houtputs.trans hrested.length.symm)
  rcases hrun : p.pool.runPhase kind inputs outputs p.world with ⟨reply, pool, s'⟩
  rw [hrun, hrested.length] at hended
  rw [afterPhase_eq hrun]
  refine ⟨hp.directory, hp.passing, fun _ => hended.sound, fun _ => hended.atRest, ?_, ?_⟩
  · intro source hsource e he
    subst he
    cases reply with
    | failed e' =>
        obtain rfl := PhaseError.pool.inj (Outcome.failed.inj hsource)
        exact Or.inl (hended.fair e' rfl)
    | ok _ => cases hsource
    | abandoned => cases hsource
  · intro hok _ _ _
    cases reply with
    | ok _ =>
        obtain ⟨hidle, hlength⟩ := hended.ready rfl
        exact ⟨hidle, hlength, hended.atRest hidle⟩
    | failed e => cases hok
    | abandoned => cases hok

end

variable [HasFiles σ]

/-- What holds of the world is kept by the steps that work on the files, and by the tasks that the
workers are handed. -/
structure Keeps (config : JobConfig) (directory : Path) (tasks : Task → Prop) (sound : σ → Prop) :
    Prop where
  sharding : ∀ s, sound s → sound (HasFiles.setFiles (Shard.run config.input
    (JobLayout.within directory config.workers).mapInputs (HasFiles.files s)).2 s)
  shuffle : ∀ s, sound s → sound (HasFiles.setFiles (Shuffle.run keyHash
    (JobLayout.within directory config.workers).mapOutputs
    (JobLayout.within directory config.workers).reduceInputs (HasFiles.files s)).2 s)
  map : ∀ file ∈ (JobLayout.within directory config.workers).mapInputs.zip
    (JobLayout.within directory config.workers).mapOutputs, tasks ⟨.map, file.1, file.2⟩
  reduce : ∀ file ∈ (JobLayout.within directory config.workers).reduceInputs.zip
    (JobLayout.within directory config.workers).reduceOutputs, tasks ⟨.reduce, file.1, file.2⟩

theorem stepEnds_afterFiles {ε α : Type} {cause : ε → PhaseError} {ended : Except ε α × FileTree}
    {phase : Phase} (hp : Underway rests sound config directory passing phase p)
    (hcause : ∀ e, FairSource fair (cause e))
    (hsound : phase ≠ .combine → sound (HasFiles.setFiles ended.2 p.world))
    (hpool : ∀ phase', phase.next? = some phase' → phase'.hasPool → phase.hasPool)
    (hworkers : phase.leavesWorkers → phase.hasPool) :
    StepEnds rests sound fair config directory passing phase (p.afterFiles cause ended) := by
  have hrested : phase.leavesWorkers → p.pool.AtRest rests :=
    fun h _ => (hp.pool (hworkers h)).rests
  rcases ended with ⟨e | a, t⟩
  · refine ⟨hp.directory, hp.passing, hsound, hrested, ?_, by simp [Progress.afterFiles]⟩
    intro source hsource
    obtain rfl := Outcome.failed.inj hsource
    exact hcause e
  · exact ⟨hp.directory, hp.passing, hsound, hrested, by simp [Progress.afterFiles],
      fun _ phase' hnext h => hp.pool (hpool phase' hnext h)⟩

variable [Worker ω σ]

theorem stepEnds_startup (h : Cycle tasks rests works sound fair)
    (hstart : Pool.Starts rests sound fair start)
    (hp : Underway rests sound config directory passing .startup p) :
    StepEnds rests sound fair config directory passing .startup (step start config p .startup) := by
  have hopen := Pool.openWith_cycle h hstart config.workers hp.sound
  rw [step]
  rcases hended : Pool.openWith config.workers start p.world with ⟨pool | e | _, s'⟩
  all_goals rw [hended] at hopen
  · obtain ⟨hidle, hlength, hrests⟩ := hopen.ready pool rfl
    exact ⟨hp.directory, hp.passing, fun _ => hopen.sound, by simp [Phase.leavesWorkers], by simp,
      fun _ _ _ _ => ⟨hidle, hlength, hrests⟩⟩
  · refine ⟨hp.directory, hp.passing, fun _ => hopen.sound, by simp [Phase.leavesWorkers], ?_,
      by simp⟩
    intro source hsource e' he'
    obtain rfl := PhaseError.pool.inj ((Outcome.failed.inj hsource).trans he')
    rcases hopen.fair e rfl with ⟨-, hzero⟩ | hfair
    · exact absurd hzero (Nat.ne_of_gt config.workers_pos)
    · exact Or.inl hfair
  · exact ⟨hp.directory, hp.passing, fun _ => hopen.sound, by simp [Phase.leavesWorkers], by simp,
      by simp⟩

theorem stepEnds_shutdown (h : Cycle tasks rests works sound fair)
    (hp : Underway rests sound config directory passing .shutdown p) :
    StepEnds rests sound fair config directory passing .shutdown
      (step start config p .shutdown) := by
  have hclose := Pool.close_cycle h (fun _ => (hp.pool rfl).rests) hp.sound
  rw [step]
  rcases hended : p.pool.close p.world with ⟨reply, workers, s'⟩
  rw [hended] at hclose
  refine ⟨hp.directory, hp.passing, fun _ => hclose.sound, by simp [Phase.leavesWorkers], ?_, ?_⟩
  · intro source hsource e he
    subst he
    cases reply with
    | failed e' =>
        obtain rfl := PhaseError.pool.inj (Outcome.failed.inj hsource)
        exact Or.inr (hclose.fair e' rfl)
    | ok _ => cases hsource
    | abandoned => cases hsource
  · rintro - phase' ⟨⟩ hphase'
    cases hphase'

/-- One step after the setup. -/
theorem step_ends (h : Cycle tasks rests works sound fair) (hstart : Pool.Starts rests sound fair start)
    (hkeeps : Keeps config directory tasks sound) {phase : Phase} (hphase : phase ≠ .setup)
    (hp : Underway rests sound config directory passing phase p) :
    StepEnds rests sound fair config directory passing phase (step start config p phase) := by
  have hlayout : p.layout config = JobLayout.within directory config.workers := by
    rw [Progress.layout, hp.directory]
  cases phase with
  | setup => exact absurd rfl hphase
  | sharding =>
      rw [step, hlayout]
      exact stepEnds_afterFiles hp (fun e _ he => by cases he) (fun _ => hkeeps.sharding _ hp.sound)
        (by rintro phase' ⟨⟩ h; exact h) (by decide)
  | startup => exact stepEnds_startup h hstart hp
  | map =>
      rw [step, hlayout]
      exact stepEnds_afterPhase h hp rfl hkeeps.map (JobLayout.length_files _ _ _)
        (JobLayout.length_files _ _ _)
  | shuffle =>
      rw [step, hlayout]
      exact stepEnds_afterFiles hp (fun e _ he => by cases he) (fun _ => hkeeps.shuffle _ hp.sound)
        (fun _ _ _ => rfl) (by decide)
  | reduce =>
      rw [step, hlayout]
      exact stepEnds_afterPhase h hp rfl hkeeps.reduce (JobLayout.length_files _ _ _)
        (JobLayout.length_files _ _ _)
  | shutdown => exact stepEnds_shutdown h hp
  | combine =>
      rw [step]
      exact stepEnds_afterFiles hp (fun e _ he => by cases he) (fun h => absurd rfl h)
        (by rintro phase' ⟨⟩) (by decide)

/-- Wherever a job comes to. -/
theorem Reaches.underway (h : Cycle tasks rests works sound fair)
    (hstart : Pool.Starts rests sound fair start) (hkeeps : Keeps config directory tasks sound)
    {t : FileTree} (hprepare : prepare config.workdir (HasFiles.files s) = .ok (directory, passing, t))
    (hsound : sound (HasFiles.setFiles t s)) {phase : Phase}
    (hreaches : Reaches start config s phase p) (hphase : phase ≠ .setup) :
    Underway rests sound config directory passing phase p := by
  induction hreaches with
  | begin => exact absurd rfl hphase
  | @next phase phase' p q hreaches hstep hnext ih =>
      by_cases hsetup : phase = .setup
      · subst hsetup
        obtain rfl := Option.some.inj hnext
        obtain rfl := hreaches.eq_begin
        rw [step_setup hprepare] at hstep
        obtain rfl := (Prod.mk.inj hstep).2
        exact ⟨rfl, rfl, hsound, by simp [Phase.hasPool]⟩
      · have hp := ih hsetup
        have hends := step_ends h hstart hkeeps hsetup hp
        rw [hstep] at hends
        have hcombine : phase ≠ .combine := by
          rintro rfl
          cases hnext
        exact ⟨hends.directory, hends.passing, hends.sound hcombine, hends.pool rfl phase' hnext⟩

end Job

end MapReduce
