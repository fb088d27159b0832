import MapReduce.Pool.Scripted
import MapReduce.Proofs.Job.Kept
import MapReduce.Worker.Launch

/-!
# Nobody is called at the wrong time

A process that serves as a worker refuses a call that does not fit its state. No pool makes such a
call: the process is idle when it is handed a task or asked to exit, and has a task when it is waited
for. Nor does a job ever use its pool wrongly, so the errors that tell of such misuse never end one.
-/

namespace MapReduce

/-- The worker was called for what it cannot do in its state. -/
def WorkerError.isRefusal : WorkerError → Bool
  | .invalidState .. => true
  | _ => false

/-- The pool was opened without workers or called for a phase that it cannot start, or a worker
refused a call. -/
def PoolError.isMisuse : PoolError → Bool
  | .empty | .lengthMismatch .. | .unavailable _ => true
  | .worker e => e.isRefusal
  | .shutdown errors => errors.any WorkerError.isRefusal

namespace ProcessWorker

variable {χ σ : Type} {w : ProcessWorker χ}

structure Resting (w : ProcessWorker χ) : Prop where
  state : w.state = .idle
  inputOpen : w.inputOpen = true

structure Working (w : ProcessWorker χ) : Prop where
  state : ∃ kind, w.state = .running kind
  inputOpen : w.inputOpen = true

abbrev Unrefused (e : WorkerError) : Prop :=
  e.isRefusal = false

theorem awaitStatus_working (bounded : Bool) (h : w.inputOpen = true) (s : σ) :
    Ends Resting (fun _ => True) Unrefused
      ((w.awaitStatus bounded).1, (w.awaitStatus bounded).2, s) := by
  induction hn : unreadOf w.decoder w.incoming using Nat.strongRecOn generalizing w with
  | _ n ih =>
      unfold awaitStatus
      split
      · next line decoder incoming hreceive =>
          split
          · exact .of_done ⟨rfl, h⟩ trivial
          · exact .of_failed rfl trivial
          · exact ih _ (hn ▸ unreadOf_lt_of_receive hreceive) h rfl
      · exact .of_failed rfl trivial
      · exact .of_failed rfl trivial
      · exact .of_never trivial

theorem drain_unrefused (w : ProcessWorker χ) (s : σ) :
    Ends (fun _ => True) (fun _ => True) Unrefused (w.drain.1, w.drain.2, s) := by
  unfold drain
  dsimp only
  split
  · exact .of_failed rfl trivial
  · split
    · exact .of_done trivial trivial
    · exact .of_never trivial

/-- A start that spawns a process, or cannot. -/
def Spawns (start : Nat → σ → Except WorkerError (ProcessWorker χ) × σ) : Prop :=
  ∀ index s, (∃ child reaction, (start index s).1 = .ok (.ofChild index child reaction))
    ∨ ∃ program source, (start index s).1 = .error (.spawn index program source)

theorem Spawns.starts {start : Nat → σ → Except WorkerError (ProcessWorker χ) × σ}
    (h : Spawns start) : Pool.Starts Resting (fun _ => True) Unrefused start := by
  intro index s _
  refine ⟨trivial, ?_, ?_⟩
  · intro w hw
    rcases h index s with ⟨child, reaction, hok⟩ | ⟨program, source, herror⟩
    · obtain rfl := Except.ok.inj (hok.symm.trans hw)
      exact ⟨rfl, rfl⟩
    · cases herror.symm.trans hw
  · intro e he
    rcases h index s with ⟨child, reaction, hok⟩ | ⟨program, source, herror⟩
    · cases hok.symm.trans he
    · obtain rfl := Except.error.inj (herror.symm.trans he)
      rfl

variable [Child χ σ]

theorem waitExit_unrefused (w : ProcessWorker χ) (s : σ) :
    Ends (fun _ => True) (fun _ => True) Unrefused (w.waitExit.1, w.waitExit.2, s) := by
  unfold waitExit
  split
  · exact .of_failed rfl trivial
  · exact .of_never trivial
  · dsimp only
    split
    · exact .of_done trivial trivial
    · exact .of_failed rfl trivial

theorem send_open (h : w.inputOpen = true) (command : Command) (s : σ) :
    Ends (fun w' : ProcessWorker χ => w'.inputOpen = true) (fun _ => True) Unrefused
      (w.send command s) := by
  rw [send, if_pos h]
  rcases Child.takeLine (Bytes.ofString command.line).terminate w.child s with ⟨_ | reaction, _, _⟩
  · exact .of_failed rfl trivial
  · exact .of_done h trivial

theorem dispatch_resting (h : Resting w) (task : Task) (s : σ) :
    Ends Working (fun _ => True) Unrefused (dispatch task w s) := by
  rw [dispatch, if_neg (by simp [h.state])]
  cases Command.ofTask task with
  | error e => exact .of_failed rfl trivial
  | ok command =>
      have hsent := send_open h.inputOpen command s
      rcases hended : w.send command s with ⟨_ | e | _, w', s'⟩
      all_goals rw [hended] at hsent
      all_goals simp only [hended]
      · exact .of_done ⟨⟨task.kind, rfl⟩, hsent.next rfl⟩ trivial
      · exact hsent.of_ne_done (by simp)
      · exact .of_never trivial

theorem terminate_resting (h : Resting w) (s : σ) :
    Ends (fun _ => True) (fun _ => True) Unrefused (w.terminate s) := by
  have hsent := send_open h.inputOpen .done s
  simp only [terminate, h.state]
  rcases hended : w.send .done s with ⟨_ | e | _, w', s'⟩
  all_goals rw [hended] at hsent
  · dsimp only
    rcases Child.takeEnd w'.child s' with ⟨reaction, child, s''⟩
    dsimp only
    generalize ({ w' with inputOpen := false }.react child reaction) = heard
    have hdrained := heard.drain_unrefused s''
    rcases hdrain : heard.drain with ⟨_ | e | _, left⟩
    all_goals rw [hdrain] at hdrained
    · exact left.waitExit_unrefused s''
    · exact hdrained
    · exact .of_never trivial
  · exact hsent.of_ne_done (by simp)
  · exact .of_never trivial

/-- A process goes through the cycle of a worker without refusing a call. -/
theorem cycle : Cycle (fun _ => True) (Resting (χ := χ)) Working (fun _ => True) Unrefused where
  dispatch task w s _ hw _ := dispatch_resting hw task s
  awaitResult bounded w s hw _ := by
    obtain ⟨⟨kind, hkind⟩, hopen⟩ := hw
    change Ends Resting (fun _ => True) Unrefused (w.awaitResult bounded s)
    rw [awaitResult, hkind]
    exact awaitStatus_working bounded hopen s
  terminate w s hw _ := terminate_resting hw s
  kill w s _ := by
    change Ends (fun _ => True) (fun _ => True) Unrefused (w.kill s)
    rcases w.kill_cases s with ⟨-, hkill⟩ | ⟨-, child, hkill | ⟨e, hkill⟩ | hkill⟩
    all_goals rw [hkill]
    · exact .of_done trivial trivial
    · exact .of_done trivial trivial
    · exact .of_failed rfl trivial
    · exact .of_never trivial
  timeout _ _ := rfl

end ProcessWorker

theorem Launch.spawns (launch : Launch) : ProcessWorker.Spawns launch.start := by
  intro index t
  cases launch with
  | script text => exact Or.inl ⟨_, _, rfl⟩
  | program path arguments =>
      cases hfound : findProgram path arguments t with
      | ok _ =>
          refine Or.inl ⟨.live (LiveChild.start arguments).1, (LiveChild.start arguments).2, ?_⟩
          simp only [start, hfound]
      | error e =>
          refine Or.inr ⟨path.show, e, ?_⟩
          simp only [start, hfound]

namespace Job

variable {χ σ : Type} [Child χ σ] [HasFiles σ]
  {start : Nat → σ → Except WorkerError (ProcessWorker χ) × σ} {config : JobConfig} {s s' : σ}
  {clock : JobState → Duration} {e : JobError}

theorem not_isMisuse_of_fairSource {source : PhaseError} {cause : PoolError}
    (h : FairSource ProcessWorker.Unrefused source) (hcause : source = .pool cause) :
    cause.isMisuse = false := by
  rcases h cause hcause with ⟨e, rfl, he⟩ | ⟨errors, rfl, herrors⟩
  · exact he
  · simpa [PoolError.isMisuse] using herrors

/-- Whatever ends a job, it is no misuse of its pool or its workers. -/
theorem run_not_misused (hstart : ProcessWorker.Spawns start)
    (h : run start clock config s = (.failed e, s')) {cause : PoolError}
    (hcause : e.source = .pool cause) : cause.isMisuse = false := by
  obtain ⟨p, q, hfails, -, -⟩ := run_eq_failed h
  by_cases hsetup : e.phase = .setup
  · have hfailed := hfails.failed
    rw [hsetup, step, hcause] at hfailed
    split at hfailed <;> cases hfailed
  · obtain ⟨directory, passing, t, hprepare⟩ := hfails.reaches.prepared hsetup
    have hkeeps : Keeps config directory (fun _ => True) (fun _ : σ => True) :=
      ⟨fun _ _ => trivial, fun _ _ => trivial, fun _ _ => trivial, fun _ _ => trivial⟩
    have hp := hfails.reaches.underway ProcessWorker.cycle hstart.starts hkeeps hprepare trivial hsetup
    have hends := step_ends ProcessWorker.cycle hstart.starts hkeeps hsetup hp
    exact not_isMisuse_of_fairSource (hends.source e.source (congrArg Prod.fst hfails.failed)) hcause

end Job

/-- **Idle workers.** If workers are idle when they start and when they have reported that a task went
well, then all workers of a pool are idle whenever the pool is, whatever phases it was called for and
whatever came of them. So a process that is a worker of a pool never refuses a call, and no job over
such processes ends with an error that tells of a pool or a worker called for the wrong thing. -/
theorem idle_workers :
    (∀ (ω σ : Type) [Worker ω σ] (start : Nat → σ → Except WorkerError ω × σ),
      (∀ bounded (w : ω) s, (Worker.awaitResult bounded w s).1 = .done →
        Worker.state (Worker.awaitResult bounded w s).2.1 = .idle) →
      (∀ index s w, (start index s).1 = .ok w → Worker.state w = .idle) →
      ∀ n s p s' (events : List (PoolEvent σ)), Pool.openWith n start s = (.ok p, s') →
        (p.live events s').1.state = .idle →
          ∀ w ∈ (p.live events s').1.workers, Worker.state w = .idle)
    ∧ (∀ (χ σ : Type) [Child χ σ] (start : Nat → σ → Except WorkerError (ProcessWorker χ) × σ),
      ProcessWorker.Spawns start → ∀ n events s, ∀ entry ∈ Pool.lifeLog n start events s,
        ∀ e, entry.reply = .failed e → e.isRefusal = false)
    ∧ (∀ (χ σ : Type) [Child χ σ] [HasFiles σ]
      (start : Nat → σ → Except WorkerError (ProcessWorker χ) × σ), ProcessWorker.Spawns start →
      ∀ clock config s s' e cause, Job.run start clock config s = (.failed e, s') →
        e.source = .pool cause → cause.isMisuse = false) := by
  refine ⟨?_, ?_, ?_⟩
  · intro ω σ _ start hanswered hstart n s p s' events hopen
    have hcycle : Cycle (fun _ => True) (fun w : ω => Worker.state w = .idle) (fun _ => True)
        (fun _ : σ => True) (fun _ => True) :=
      { dispatch := fun _ _ _ _ _ _ => ⟨by simp, trivial, fun _ => trivial⟩
        awaitResult := fun bounded w s _ _ => ⟨by simp, trivial, hanswered bounded w s⟩
        terminate := fun _ _ _ _ => ⟨by simp, trivial, fun _ => trivial⟩
        kill := fun _ _ _ => ⟨by simp, trivial, fun _ => trivial⟩
        timeout := fun _ _ => trivial }
    have hstarts : Pool.Starts (fun w : ω => Worker.state w = .idle) (fun _ => True)
        (fun _ => True) start :=
      fun index s _ => ⟨trivial, hstart index s, fun _ _ => trivial⟩
    have hopened := Pool.openWith_cycle hcycle hstarts n (s := s) trivial
    rw [hopen] at hopened
    obtain ⟨-, -, hrests⟩ := hopened.ready p rfl
    exact (Pool.live_cycle hcycle events (by simp) (fun _ => hrests) trivial).1
  · intro χ σ _ start hstart n events s entry hentry e he
    refine Pool.lifeLog_cycle ProcessWorker.cycle hstart.starts n events s entry hentry e ?_
    simp [he, Reply.errors]
  · intro χ σ _ _ start hstart clock config s s' e cause hrun hcause
    exact Job.run_not_misused hstart hrun hcause

namespace Job

def oneFile : FileTree :=
  ⟨[], [([], .directory), ([Bytes.ofString "in"], .file (Bytes.ofString "a\n"))]⟩

def workerless : JobConfig where
  workers := 2
  workers_pos := Nat.two_pos
  program := Bytes.ofString "/worker"
  arguments := []
  input := Bytes.ofString "in"
  output := Bytes.ofString "out"
  taskTimeout := none
  workdir := some (Bytes.ofString "work")

end Job

/-- Workers that do whatever they are asked to. -/
def compliant (index : Nat) (log : CallLog) : Except WorkerError ScriptedWorker × CallLog :=
  (.ok ⟨index, .idle, [], [], [], []⟩, log)

theorem idle_workers_two :
    (∃ p s', Pool.openWith 2 compliant [] = (.ok p, s')
      ∧ (p.live [.phase ⟨.map, [[], []], [[], []], true⟩] s').1.state = .idle
      ∧ ∀ w ∈ (p.live [.phase ⟨.map, [[], []], [[], []], true⟩] s').1.workers,
          Worker.state w = .idle)
    ∧ ∃ e s', Job.run (Launch.program Job.workerless.program []).start (fun _ => 0) Job.workerless
        Job.oneFile = (.failed ⟨.startup, .pool e⟩, s')
      ∧ e = .worker (.spawn 0 "/worker" .noEntry) ∧ e.isMisuse = false := by
  constructor
  · have hanswered : ∀ bounded (w : ScriptedWorker) s, (Worker.awaitResult bounded w s).1 = .done →
        Worker.state (Worker.awaitResult bounded w s).2.1 = .idle := by
      intro bounded w s hdone
      refine if_neg fun hnever => ?_
      exact absurd (hdone.symm.trans hnever) (by simp)
    have hstart : ∀ index s w, (compliant index s).1 = .ok w → Worker.state w = .idle := by
      rintro index s w ⟨⟩
      rfl
    exact ⟨_, _, rfl, rfl, idle_workers.1 ScriptedWorker CallLog compliant hanswered hstart 2 []
      _ _ [.phase ⟨.map, [[], []], [[], []], true⟩] rfl rfl⟩
  · rcases hrun : Job.run (Launch.program Job.workerless.program []).start (fun _ => 0)
      Job.workerless Job.oneFile with ⟨ended, s'⟩
    have hended : (Job.run (Launch.program Job.workerless.program []).start (fun _ => 0)
        Job.workerless Job.oneFile).1
          = .failed ⟨.startup, .pool (.worker (.spawn 0 "/worker" .noEntry))⟩ := by
      decide +kernel
    rw [hrun] at hended
    obtain rfl := hended
    exact ⟨_, s', rfl, rfl,
      idle_workers.2.2 AnyChild FileTree _ (Launch.spawns _) _ _ _ _ _ _ hrun rfl⟩

end MapReduce
