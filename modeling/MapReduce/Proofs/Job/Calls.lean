import MapReduce.Proofs.Job.Kept
import MapReduce.Proofs.Job.Watching
import MapReduce.Proofs.Pool.Opening

/-!
# The calls of a failed job

The calls that a job makes to its workers are those of the phases that it has come to, and then those
that stop the workers. Tasks of a reduce phase are handed over only when the records have been
shuffled. However the job fails, all workers that were started are stopped: they are killed if their
phase failed, and asked to exit otherwise.
-/

namespace MapReduce

/-- A call of a phase of one of these kinds: it hands over a task or waits for a result. -/
def CallEntry.IsWork (kinds : List TaskKind) (entry : CallEntry) : Prop :=
  ∃ kind ∈ kinds, entry.call = .awaitResult
    ∨ ∃ input output, entry.call = .dispatch ⟨kind, input, output⟩

theorem CallEntry.IsWork.mono {kinds kinds' : List TaskKind} {entry : CallEntry}
    (h : entry.IsWork kinds) (hsub : kinds ⊆ kinds') : entry.IsWork kinds' := by
  obtain ⟨kind, hkind, hcall⟩ := h
  exact ⟨kind, hsub hkind, hcall⟩

theorem CallEntry.IsWork.ne_stop {kinds : List TaskKind} {entry : CallEntry}
    (h : entry.IsWork kinds) : entry.call ≠ .terminate ∧ entry.call ≠ .kill := by
  obtain ⟨kind, -, hcall | ⟨input, output, hcall⟩⟩ := h <;> simp [hcall]

theorem Pool.call_of_mem_closePlan {n : Nat} {refusals : List WorkerError} {shutdown : Shutdown}
    {step : Nat × WorkerCall} (h : step ∈ closePlan n refusals shutdown) :
    step.2 = .kill ∨ shutdown = .graceful ∧ step.2 = .terminate := by
  have hkills : ∀ step ∈ killPlan n, step.2 = .kill := by simp [killPlan]
  cases shutdown with
  | kill => exact Or.inl (hkills step h)
  | graceful =>
      rcases List.mem_append.mp h with h | h
      · obtain ⟨i, -, rfl⟩ := List.mem_map.mp h
        exact Or.inr ⟨rfl, rfl⟩
      · split at h
        · exact absurd h List.not_mem_nil
        · exact Or.inl (hkills step h)

theorem Along.step_mem {limit : Option Duration} {plan : List (Nat × WorkerCall)}
    {entries : List CallEntry} {reply : PoolReply Unit} (h : Along limit plan entries reply) :
    ∀ entry ∈ entries, entry.step ∈ plan := by
  induction h with
  | finished => simp
  | broken _ => simp [CallEntry.step]
  | next _ ih =>
      intro entry hentry
      rcases List.mem_cons.mp hentry with rfl | hentry
      · exact List.mem_cons_self
      · exact List.mem_cons_of_mem _ (ih entry hentry)

theorem PhaseCall.isWork_of_step_mem {call : PhaseCall} {entry : CallEntry}
    (h : entry.step ∈ call.plan) : entry.IsWork [call.kind] := by
  rcases List.mem_append.mp h with h | h
  · obtain ⟨files, -, hstep⟩ := List.mem_map.mp h
    exact ⟨_, List.mem_singleton_self _, Or.inr ⟨_, _, (congrArg Prod.snd hstep).symm⟩⟩
  · obtain ⟨i, -, hstep⟩ := List.mem_map.mp h
    exact ⟨_, List.mem_singleton_self _, Or.inl (congrArg Prod.snd hstep).symm⟩

namespace Phase

/-- The kinds of the tasks that have been handed over when the step has been taken. -/
def handed : Phase → List TaskKind
  | .setup | .sharding | .startup => []
  | .map | .shuffle => [.map]
  | .reduce | .shutdown | .combine => [.map, .reduce]

/-- How workers are stopped that are left when the step has failed, or were stopped before. -/
def stopping : Phase → Shutdown
  | .map | .reduce => .kill
  | .setup | .sharding | .startup | .shuffle | .shutdown | .combine => .graceful

end Phase

/-- Work came first, and then the calls that stop `k` workers. -/
def StoppedAfter (kinds : List TaskKind) (k : Nat) (shutdown : Shutdown) (log : List CallEntry) :
    Prop :=
  ∃ work closing, log = work ++ closing ∧ (∀ entry ∈ work, entry.IsWork kinds)
    ∧ closing.map CallEntry.step = Pool.closePlan k (Pool.failures .terminate closing) shutdown

namespace StoppedAfter

variable {kinds : List TaskKind} {k : Nat} {shutdown : Shutdown} {log : List CallEntry}

/-- Only tasks of these kinds were handed over. -/
theorem dispatched (h : StoppedAfter kinds k shutdown log) {entry : CallEntry} (hentry : entry ∈ log)
    {task : Task} (htask : entry.call = .dispatch task) : task.kind ∈ kinds := by
  obtain ⟨work, closing, rfl, hwork, hclosing⟩ := h
  rcases List.mem_append.mp hentry with hentry | hentry
  · obtain ⟨kind, hkind, hcall | ⟨input, output, hcall⟩⟩ := hwork entry hentry
    · cases htask.symm.trans hcall
    · obtain rfl := WorkerCall.dispatch.inj (htask.symm.trans hcall)
      exact hkind
  · have hstep : entry.step ∈ Pool.closePlan k _ shutdown := hclosing ▸ List.mem_map_of_mem hentry
    rcases Pool.call_of_mem_closePlan hstep with hcall | ⟨-, hcall⟩
    · cases htask.symm.trans hcall
    · cases htask.symm.trans hcall

/-- Workers that are killed at once are all killed, and none of them is asked to exit. -/
theorem killed (h : StoppedAfter kinds k .kill log) :
    (∀ i < k, ∃ entry ∈ log, entry.step = (i, .kill)) ∧ ∀ entry ∈ log, entry.call ≠ .terminate := by
  obtain ⟨work, closing, rfl, hwork, hclosing⟩ := h
  constructor
  · intro i hi
    have hkill : (i, WorkerCall.kill) ∈ closing.map CallEntry.step := by
      rw [hclosing]
      exact List.mem_map_of_mem (List.mem_range.mpr hi)
    obtain ⟨entry, hentry, hstep⟩ := List.mem_map.mp hkill
    exact ⟨entry, List.mem_append_right _ hentry, hstep⟩
  · refine List.forall_mem_append.mpr ⟨fun entry hentry => (hwork entry hentry).ne_stop.1, ?_⟩
    intro entry hentry hcall
    have hstep : entry.step ∈ Pool.closePlan k _ .kill := hclosing ▸ List.mem_map_of_mem hentry
    rcases Pool.call_of_mem_closePlan hstep with hkill | ⟨hgraceful, -⟩
    · cases hcall.symm.trans hkill
    · cases hgraceful

/-- Otherwise all of them are asked to exit before any of them is killed. -/
theorem asked (h : StoppedAfter kinds k .graceful log) :
    ∃ before after, log = before ++ after ∧ (∀ entry ∈ before, entry.call ≠ .kill)
      ∧ ∀ i < k, ∃ entry ∈ before, entry.step = (i, .terminate) := by
  obtain ⟨work, closing, rfl, hwork, hclosing⟩ := h
  obtain ⟨asking, killing, rfl, hasking, -⟩ := List.map_eq_append_iff.mp hclosing
  refine ⟨work ++ asking, killing, (List.append_assoc ..).symm, ?_, ?_⟩
  · refine List.forall_mem_append.mpr ⟨fun entry hentry => (hwork entry hentry).ne_stop.2, ?_⟩
    intro entry hentry hcall
    have hstep : entry.step ∈ Pool.terminatePlan k := hasking ▸ List.mem_map_of_mem hentry
    obtain ⟨i, -, hterminate⟩ := List.mem_map.mp hstep
    cases (congrArg Prod.snd hterminate).trans hcall
  · intro i hi
    have hterminate : (i, WorkerCall.terminate) ∈ asking.map CallEntry.step := by
      rw [hasking]
      exact List.mem_map_of_mem (List.mem_range.mpr hi)
    obtain ⟨entry, hentry, hstep⟩ := List.mem_map.mp hterminate
    exact ⟨entry, List.mem_append_right _ hentry, hstep⟩

end StoppedAfter

namespace Job

variable {ω σ : Type} [Worker ω σ] {start : Nat → σ → Except WorkerError ω × σ}
  {config : JobConfig} {s : σ} {phase : Phase} {p q : Progress (Watched ω) (σ × List CallEntry)}

theorem afterPhase_calls {kind : TaskKind} {inputs outputs : List Path} {workers : List ω}
    (hidle : p.pool.state = .idle) (hworkers : p.pool.workers = Watched.line 0 workers)
    (hinputs : inputs.length = workers.length) (houtputs : outputs.length = workers.length) :
    ∃ (reply : PoolReply Unit) (after : List ω) (state : PoolState) (s' : σ)
        (entries : List CallEntry),
      p.afterPhase kind inputs outputs = (poolOutcome reply,
          { p with world := (s', p.world.2 ++ entries),
                   pool := ⟨Watched.line 0 after, state, p.pool.taskTimeout⟩ })
        ∧ after.length = workers.length ∧ (∀ entry ∈ entries, entry.IsWork [kind])
        ∧ (state = .idle ↔ reply = .ok ()) := by
  obtain ⟨reply, after, state, s', entries, hphase, hafter, halong, hstate, -⟩ :=
    Pool.runPhase_along workers p.pool.taskTimeout kind inputs outputs p.world.1 p.world.2 hinputs
      houtputs
  have hpool : p.pool = ⟨Watched.line 0 workers, .idle, p.pool.taskTimeout⟩ := by
    rw [← hidle, ← hworkers]
  rw [← hpool] at hphase
  exact ⟨reply, after, state, s', entries, afterPhase_eq hphase, hafter,
    fun entry hentry => PhaseCall.isWork_of_step_mem (halong.step_mem entry hentry), hstate⟩

/-- Closing a pool of watched workers adds the calls of its plan. -/
theorem close_calls {workers : List ω} {pool : Pool (Watched ω)} {reply : PoolReply Unit}
    {left : List (Watched ω)} {s s' : σ} {log log' : List CallEntry}
    (hworkers : pool.workers = Watched.line 0 workers)
    (hclose : pool.close (s, log) = (reply, left, (s', log'))) (hreply : reply ≠ .abandoned) :
    ∃ closing, log' = log ++ closing ∧ closing.map CallEntry.step
      = Pool.closePlan workers.length (Pool.failures .terminate closing) pool.state.shutdown := by
  let plain : Pool ω := ⟨workers, pool.state, pool.taskTimeout⟩
  have hpool : plain.watched = pool := by
    rw [Pool.watched, ← hworkers]
  obtain ⟨closing, hwatched, hclosing⟩ := Pool.close_watch plain s log
  rw [hpool, hclose, Prod.mk.injEq, Prod.mk.injEq, Prod.mk.injEq] at hwatched
  obtain ⟨hsame, -, -, hlog⟩ := hwatched
  exact ⟨closing, hlog, hclosing.closed.steps (hsame ▸ hreply)⟩

variable [HasFiles σ]

/-- How many workers a job has started that has come to a step. -/
def Started (start : Nat → σ → Except WorkerError ω × σ) (config : JobConfig) (s : σ)
    (phase : Phase) (k : Nat) : Prop :=
  (phase = .setup ∨ phase = .sharding) ∧ k = 0
    ∨ ∃ p, Reaches (Watched.start start) config (s, []) .startup p
        ∧ k = Pool.startedFrom start 0 p.world.1 config.workers

/-- What the calls have been when a job comes to a step. -/
structure CallsBefore (start : Nat → σ → Except WorkerError ω × σ) (config : JobConfig) (s : σ)
    (phase : Phase) (p : Progress (Watched ω) (σ × List CallEntry)) : Prop where
  work : phase ≠ .combine → ∀ entry ∈ p.world.2, entry.IsWork phase.handed
  pool : phase.hasPool → p.pool.state = .idle ∧ ∃ workers : List ω,
    p.pool.workers = Watched.line 0 workers ∧ workers.length = config.workers
  started : phase.hasPool ∨ phase = .combine → Started start config s phase config.workers
  stopped : phase = .combine → StoppedAfter phase.handed config.workers .graceful p.world.2

/-- What the calls have been when a step has failed and the workers that it left are stopped. -/
def CallsAfter (start : Nat → σ → Except WorkerError ω × σ) (config : JobConfig) (s : σ)
    (phase : Phase) (q : Progress (Watched ω) (σ × List CallEntry)) : Prop :=
  (q.stopWorkers phase).1 ≠ .abandoned → ∃ k, Started start config s phase k
    ∧ StoppedAfter phase.handed k phase.stopping (q.stopWorkers phase).2.2

/-- What a step does to the calls. -/
structure StepCalls (start : Nat → σ → Except WorkerError ω × σ) (config : JobConfig) (s : σ)
    (phase : Phase) (ended : Outcome PhaseError Unit × Progress (Watched ω) (σ × List CallEntry)) :
    Prop where
  before : ended.1 = .ok () → ∀ phase', phase.next? = some phase' →
    CallsBefore start config s phase' ended.2
  after : ∀ e, ended.1 = .failed e → CallsAfter start config s phase ended.2

theorem handed_subset {phase' : Phase} (hnext : phase.next? = some phase') :
    phase.handed ⊆ phase'.handed := by
  cases phase <;> cases hnext <;> simp [Phase.handed]

theorem Started.next {phase' : Phase} (h : Started start config s phase config.workers) :
    Started start config s phase' config.workers := by
  rcases h with ⟨-, hzero⟩ | hstarted
  · exact absurd hzero (Nat.ne_of_gt config.workers_pos)
  · exact Or.inr hstarted

theorem next?_ne_combine {phase' : Phase} (hworkers : phase.leavesWorkers)
    (hnext : phase.next? = some phase') : phase' ≠ .combine := by
  rintro rfl
  cases phase with
  | shutdown => cases hworkers
  | _ => cases hnext

/-- The workers that a failed step has left are stopped by the calls of a plan. -/
theorem callsAfter_of_close {workers : List ω} (hworkers : phase.leavesWorkers)
    (hline : q.pool.workers = Watched.line 0 workers) (hlength : workers.length = config.workers)
    (hstarted : Started start config s phase config.workers)
    (hwork : ∀ entry ∈ q.world.2, entry.IsWork phase.handed)
    (hstopping : q.pool.state.shutdown = phase.stopping) : CallsAfter start config s phase q := by
  intro hreturned
  rw [Progress.stopWorkers, if_pos hworkers] at hreturned ⊢
  rcases hclose : q.pool.close q.world with ⟨reply, left, s', log⟩
  rw [hclose] at hreturned
  obtain ⟨closing, hlog, hsteps⟩ := close_calls hline hclose hreturned
  rw [hlength, hstopping] at hsteps
  exact ⟨config.workers, hstarted, q.world.2, closing, hlog, hwork, hsteps⟩

/-- A phase on watched workers. -/
theorem stepCalls_afterPhase {kind : TaskKind} {inputs outputs : List Path}
    (hp : CallsBefore start config s phase p) (hworkers : phase.leavesWorkers)
    (hpool : phase.hasPool) (hstopping : phase.stopping = .kill) (hkind : kind ∈ phase.handed)
    (hinputs : inputs.length = config.workers) (houtputs : outputs.length = config.workers) :
    StepCalls start config s phase (p.afterPhase kind inputs outputs) := by
  obtain ⟨hidle, workers, hline, hlength⟩ := hp.pool hpool
  have hcombine : phase ≠ .combine := by
    rintro rfl
    cases hpool
  obtain ⟨reply, after, state, s', entries, hphase, hafter, hwork, hstate⟩ :=
    afterPhase_calls hidle hline (hinputs.trans hlength.symm) (houtputs.trans hlength.symm)
  rw [hphase]
  have hall : ∀ entry ∈ p.world.2 ++ entries, entry.IsWork phase.handed :=
    List.forall_mem_append.mpr ⟨hp.work hcombine,
      fun entry hentry => (hwork entry hentry).mono (by simpa using hkind)⟩
  have hstarted := hp.started (Or.inl hpool)
  constructor
  · intro hok phase' hnext
    have hreply : reply = .ok () := by
      cases reply with
      | ok _ => rfl
      | failed e => cases hok
      | abandoned => cases hok
    exact
      { work := fun _ entry hentry => (hall entry hentry).mono (handed_subset hnext)
        pool := fun _ => ⟨hstate.mpr hreply, after, rfl, hafter.trans hlength⟩
        started := fun _ => hstarted.next
        stopped := fun h => absurd h (next?_ne_combine hworkers hnext) }
  · intro e he
    have hstate' : state ≠ .idle := by
      intro h
      rw [hstate.mp h] at he
      cases he
    refine callsAfter_of_close hworkers rfl (hafter.trans hlength) hstarted hall ?_
    rw [hstopping]
    cases state with
    | idle => exact absurd rfl hstate'
    | phaseInFlight kind => rfl
    | failed => rfl

/-- A step that works on the files alone. -/
theorem stepCalls_afterFiles {ε α : Type} {cause : ε → PhaseError} {ended : Except ε α × FileTree}
    (hp : CallsBefore start config s phase p)
    (hbefore : ∀ phase', phase.next? = some phase' →
      phase' ≠ .combine ∧ (phase'.hasPool → phase.hasPool))
    (hafter : ∀ t, CallsAfter start config s phase (p.withFiles t)) :
    StepCalls start config s phase (p.afterFiles cause ended) := by
  rcases ended with ⟨e | a, t⟩
  · exact ⟨by simp [Progress.afterFiles], fun _ _ => hafter t⟩
  · refine ⟨fun _ phase' hnext => ?_, by simp [Progress.afterFiles]⟩
    obtain ⟨hcombine, hpool⟩ := hbefore phase' hnext
    have hphase : phase ≠ .combine := by
      rintro rfl
      cases hnext
    exact
      { work := fun _ entry hentry => (hp.work hphase entry hentry).mono (handed_subset hnext)
        pool := fun h => hp.pool (hpool h)
        started := fun h => (hp.started (Or.inl (hpool (h.resolve_right hcombine)))).next
        stopped := fun h => absurd h hcombine }

theorem stepCalls_startup (hp : CallsBefore start config s .startup p)
    (hreaches : Reaches (Watched.start start) config (s, []) .startup p) :
    StepCalls start config s .startup (step (Watched.start start) config p .startup) := by
  have hopen := Pool.openWith_watch start config.workers p.world.1 p.world.2
  have hstarted : Started start config s .startup
      (Pool.startedFrom start 0 p.world.1 config.workers) := Or.inr ⟨p, hreaches, rfl⟩
  rw [step]
  rcases hended : Pool.openWith config.workers (Watched.start start) p.world with ⟨reply, s', log⟩
  have hended' : Pool.openWith config.workers (Watched.start start) (p.world.1, p.world.2) = _ := hended
  rw [hended'] at hopen
  cases hopen with
  | @opened workers _ _ hlength hall =>
      refine ⟨?_, by simp⟩
      rintro - phase' ⟨⟩
      rw [hall] at hstarted
      exact
        { work := fun _ entry hentry =>
            (hp.work (by simp) entry hentry).mono (List.nil_subset _)
          pool := fun _ => ⟨rfl, workers, rfl, hlength⟩
          started := fun _ => hstarted.next
          stopped := by simp }
  | @failed e _ entries _ hentries =>
      refine ⟨by simp, fun _ _ _ => ?_⟩
      exact ⟨_, hstarted, p.world.2, entries, rfl, hp.work (by simp), hentries⟩
  | abandoned _ => exact ⟨by simp, by simp⟩

theorem stepCalls_shutdown (hp : CallsBefore start config s .shutdown p) :
    StepCalls start config s .shutdown (step (Watched.start start) config p .shutdown) := by
  obtain ⟨hidle, workers, hline, hlength⟩ := hp.pool rfl
  have hstarted := hp.started (Or.inl rfl)
  rw [step]
  rcases hclose : p.pool.close p.world with ⟨reply, left, s', log⟩
  have hstopped : reply ≠ .abandoned →
      StoppedAfter Phase.shutdown.handed config.workers .graceful log := by
    intro hreply
    obtain ⟨closing, hlog, hsteps⟩ := close_calls hline hclose hreply
    rw [hlength, hidle] at hsteps
    exact ⟨p.world.2, closing, hlog, hp.work (by simp), hsteps⟩
  constructor
  · rintro hok phase' ⟨⟩
    have hreply : reply ≠ .abandoned := by
      rintro rfl
      cases hok
    exact
      { work := fun h => absurd rfl h
        pool := fun h => by cases h
        started := fun _ => hstarted.next
        stopped := fun _ => hstopped hreply }
  · intro e he _
    have hreply : reply ≠ .abandoned := by
      rintro rfl
      cases he
    exact ⟨config.workers, hstarted, hstopped hreply⟩

theorem step_calls (hp : CallsBefore start config s phase p)
    (hreaches : Reaches (Watched.start start) config (s, []) phase p) :
    StepCalls start config s phase (step (Watched.start start) config p phase) := by
  cases phase with
  | setup =>
      have hwork : ∀ entry ∈ p.world.2, entry.IsWork [] := hp.work (by simp)
      rw [step]
      rcases prepare config.workdir p.files with e | ⟨directory, passing, t⟩
      · refine ⟨by simp, fun _ _ _ => ⟨0, Or.inl ⟨Or.inl rfl, rfl⟩, p.world.2, [], ?_, hwork, rfl⟩⟩
        exact (List.append_nil _).symm
      · refine ⟨?_, by simp⟩
        rintro - phase' ⟨⟩
        exact
          { work := fun _ => hwork
            pool := fun h => by cases h
            started := fun h => by rcases h with h | h <;> cases h
            stopped := fun h => by cases h }
  | sharding =>
      refine stepCalls_afterFiles hp (by rintro phase' ⟨⟩; exact ⟨by simp, id⟩) fun t _ => ?_
      exact ⟨0, Or.inl ⟨Or.inr rfl, rfl⟩, p.world.2, [], (List.append_nil _).symm,
        hp.work (by simp), rfl⟩
  | startup => exact stepCalls_startup hp hreaches
  | map =>
      exact stepCalls_afterPhase hp rfl rfl rfl (by decide) (JobLayout.length_files _ _ _)
        (JobLayout.length_files _ _ _)
  | shuffle =>
      refine stepCalls_afterFiles hp (by rintro phase' ⟨⟩; exact ⟨by simp, id⟩) fun t => ?_
      obtain ⟨hidle, workers, hline, hlength⟩ := hp.pool rfl
      exact callsAfter_of_close rfl hline hlength (hp.started (Or.inl rfl)) (hp.work (by simp))
        (by rw [Progress.withFiles, hidle]; rfl)
  | reduce =>
      exact stepCalls_afterPhase hp rfl rfl rfl (by decide) (JobLayout.length_files _ _ _)
        (JobLayout.length_files _ _ _)
  | shutdown => exact stepCalls_shutdown hp
  | combine =>
      refine stepCalls_afterFiles hp (by rintro phase' ⟨⟩) fun t _ => ?_
      exact ⟨config.workers, hp.started (Or.inr rfl), hp.stopped rfl⟩

theorem Reaches.calls (hreaches : Reaches (Watched.start start) config (s, []) phase p) :
    CallsBefore start config s phase p := by
  induction hreaches with
  | begin =>
      exact
        { work := fun _ entry hentry => absurd hentry List.not_mem_nil
          pool := fun h => by cases h
          started := fun h => by rcases h with h | h <;> cases h
          stopped := fun h => by cases h }
  | next hreaches hstep hnext ih =>
      have hcalls := step_calls ih hreaches
      rw [hstep] at hcalls
      exact hcalls.before rfl _ hnext

end Job

end MapReduce
