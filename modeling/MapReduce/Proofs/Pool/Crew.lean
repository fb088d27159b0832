import MapReduce.Proofs.Pool.Workshop
import MapReduce.Proofs.TaskOrder

/-!
# Crews

A crew is a way of running workers under which a phase comes to the same as its tasks in some
order. Processes that act at once are one, and those of a workshop are another. A phase fails if a
task does in that order, if a path cannot be sent, or if the processes leave.
-/

namespace MapReduce

open CommandLine (WorkerStart)

namespace Pool

section

variable {ω σ : Type} [Worker ω σ] [HasFiles σ]

/-- How a phase has ended whose tasks were carried out in some order. -/
inductive CarriedOut (how : WorkerStart) (kind : TaskKind) (inputs outputs : List Path)
    (t : FileTree) (ready : Pool ω → σ → Prop) : PoolReply Unit × Pool ω × σ → Prop where
  | ok {runner : TaskRunner} {tasks : List Task} {p : Pool ω} {s : σ}
      (hserving : how = .serving runner) (hsendable : ∀ task ∈ tasks, task.Sendable)
      (hperm : tasks.Perm (tasksOf kind inputs outputs))
      (hok : AllOk (runner.runEach t tasks).1)
      (hfiles : HasFiles.files s = (runner.runEach t tasks).2) (hready : ready p s) :
      CarriedOut how kind inputs outputs t ready (.ok (), p, s)
  | failed {e : PoolError} {p : Pool ω} {s : σ}
      (hcause : ∀ runner, how = .serving runner →
        (∀ task ∈ tasksOf kind inputs outputs, task.Sendable) →
        ∃ tasks : List Task, tasks.Perm (tasksOf kind inputs outputs)
          ∧ ¬ AllOk (runner.runEach t tasks).1)
      (hstate : p.state = .failed) : CarriedOut how kind inputs outputs t ready (.failed e, p, s)

/-- What is asked of a way of starting workers, and of the pools of them that can start a phase. -/
structure Crew (program : Path) (arguments : List Bytes) (how : WorkerStart)
    (start : Nat → σ → Except WorkerError ω × σ) (calm : σ → Prop)
    (ready : Nat → Pool ω → σ → Prop) : Prop where
  files_setFiles : ∀ (t : FileTree) (s : σ), HasFiles.files (HasFiles.setFiles t s) = t
  calm_setFiles : ∀ (t : FileTree) (s : σ), calm s → calm (HasFiles.setFiles t s)
  ready_setFiles : ∀ (n : Nat) (p : Pool ω) (t : FileTree) (s : σ),
    ready n p s → ready n p (HasFiles.setFiles t s)
  ready_withTaskTimeout : ∀ (n : Nat) (p : Pool ω) (limit : Option Duration) (s : σ),
    ready n p s → ready n (p.withTaskTimeout limit) s
  openWith_found : ∀ (n : Nat) (s : σ), 0 < n → calm s →
    Launch.findProgram program arguments (HasFiles.files s) = .ok () →
    ∃ p s', openWith n start s = (.ok p, s') ∧ ready n p s' ∧ HasFiles.files s' = HasFiles.files s
  openWith_missing : ∀ (n : Nat) (s : σ), 0 < n →
    Launch.findProgram program arguments (HasFiles.files s) ≠ .ok () →
    ∃ e s', openWith n start s = (.failed e, s')
  runPhase : ∀ (n : Nat) (p : Pool ω) (s : σ) (kind : TaskKind) (inputs outputs : List Path),
    0 < n → ready n p s → inputs.length = n → outputs.length = n →
    CarriedOut how kind inputs outputs (HasFiles.files s) (ready n)
      (p.runPhase kind inputs outputs s)
  close_ready : ∀ (n : Nat) (p : Pool ω) (s : σ) (runner : TaskRunner), how = .serving runner →
    ready n p s → ∃ ws s', p.close s = (.ok (), ws, s') ∧ HasFiles.files s' = HasFiles.files s
  close_failed : ∀ (p : Pool ω) (s : σ), p.state = .failed →
    ∃ ws s', p.close s = (.ok (), ws, s')

end

section

variable {ω σ : Type} [Worker ω σ] {ws : List ω} {kind : TaskKind} {inputs outputs : List Path}

theorem dispatchAll_done {busy : ω → ω} (after : σ → ω × Task → σ)
    (h : ∀ w ∈ ws, ∀ task : Task, task.kind = kind → task.Sendable → ∀ s,
      Worker.dispatch task w s = (.done, busy w, after s (w, task)))
    (hinputs : ws.length = inputs.length) (houtputs : ws.length = outputs.length)
    (hsendable : ∀ task ∈ tasksOf kind inputs outputs, task.Sendable) (s : σ) :
    dispatchAll kind ws (inputs.zip outputs) s
      = (.done, ws.map busy, (ws.zip (tasksOf kind inputs outputs)).foldl after s) := by
  induction ws generalizing inputs outputs s with
  | nil =>
      obtain rfl := List.length_eq_zero_iff.mp hinputs.symm
      rfl
  | cons w ws ih =>
      obtain ⟨input, inputs, rfl⟩ := List.exists_cons_of_length_eq_add_one hinputs.symm
      obtain ⟨output, outputs, rfl⟩ := List.exists_cons_of_length_eq_add_one houtputs.symm
      rw [tasksOf_cons, List.forall_mem_cons] at hsendable
      rw [List.zip_cons_cons, dispatchAll, h w (by simp) _ rfl hsendable.1]
      simp only [ih (fun w hw => h w (by simp [hw])) (by simpa using hinputs)
        (by simpa using houtputs) hsendable.2]
      rfl

/-- A task that cannot be sent ends the handing over. -/
theorem dispatchAll_unsendable {rests : ω → Prop}
    (hsent : ∀ w, rests w → ∀ task : Task, task.Sendable → ∀ s,
      ∃ w' s', Worker.dispatch task w s = (.done, w', s'))
    (hkept : ∀ w, rests w → ∀ task : Task, ¬ task.Sendable → ∀ s,
      ∃ e w' s', Worker.dispatch task w s = (.failed e, w', s'))
    (hws : ∀ w ∈ ws, rests w) (hinputs : ws.length = inputs.length)
    (houtputs : ws.length = outputs.length)
    (hunsendable : ¬ ∀ task ∈ tasksOf kind inputs outputs, task.Sendable) (s : σ) :
    ∃ e ws' s', dispatchAll kind ws (inputs.zip outputs) s = (.failed e, ws', s') := by
  induction ws generalizing inputs outputs s with
  | nil =>
      obtain rfl := List.length_eq_zero_iff.mp hinputs.symm
      exact absurd (by simp [tasksOf]) hunsendable
  | cons w ws ih =>
      obtain ⟨input, inputs, rfl⟩ := List.exists_cons_of_length_eq_add_one hinputs.symm
      obtain ⟨output, outputs, rfl⟩ := List.exists_cons_of_length_eq_add_one houtputs.symm
      have hw := hws w (by simp)
      rw [List.zip_cons_cons, dispatchAll]
      by_cases htask : Task.Sendable ⟨kind, input, output⟩
      · obtain ⟨w', s₁, hone⟩ := hsent w hw _ htask s
        have hrest : ¬ ∀ task ∈ tasksOf kind inputs outputs, task.Sendable := by
          intro hall
          exact hunsendable (by simpa [tasksOf_cons, htask] using hall)
        obtain ⟨e, ws', s', hrest⟩ := ih (fun w hw => hws w (by simp [hw])) (by simpa using hinputs)
          (by simpa using houtputs) hrest s₁
        exact ⟨e, w' :: ws', s', by simp only [hone, hrest]⟩
      · obtain ⟨e, w', s', hone⟩ := hkept w hw _ htask s
        exact ⟨e, w' :: ws, s', by simp only [hone]⟩

theorem openWith_failed {n : Nat} {start : Nat → σ → Except WorkerError ω × σ} {s : σ}
    {e : WorkerError} (hn : 0 < n) (hstart : start 0 s = (.error e, s)) :
    ∃ e s', openWith n start s = (.failed e, s') := by
  obtain ⟨m, rfl⟩ := Nat.exists_eq_succ_of_ne_zero (Nat.ne_of_gt hn)
  refine ⟨.worker e, s, ?_⟩
  rw [openWith, if_neg (Nat.ne_of_gt hn), startAll, hstart]
  rfl

theorem awaitAll_failed {w : ω} {s : σ}
    (h : ∀ bounded, ∃ e w' s', Worker.awaitResult bounded w s = (.failed e, w', s')) (ws : List ω)
    (limit : Option Duration) :
    ∃ e ws' s', awaitAll limit (w :: ws) s = (.failed e, ws', s') := by
  cases limit with
  | none =>
      obtain ⟨e, w', s', hone⟩ := h false
      exact ⟨e, w' :: ws, s', by rw [awaitAll, awaitWithin, hone]⟩
  | some limit =>
      obtain ⟨e, w', s', hone⟩ := h true
      exact ⟨e, w' :: ws, s', by rw [awaitAll, awaitWithin, hone]⟩

theorem runPhase_failed {p : Pool ω} {s s' : σ} {ws' : List ω} {e : WorkerError}
    (hstate : p.state = .idle) (hinputs : inputs.length = p.workers.length)
    (houtputs : outputs.length = p.workers.length)
    (hdispatch : dispatchAll kind p.workers (inputs.zip outputs) s = (.failed e, ws', s')) :
    p.runPhase kind inputs outputs s
      = (.failed (.worker e), { p with workers := ws', state := .failed }, s') := by
  simp only [runPhase, hinputs, houtputs, ne_eq, not_true_eq_false, or_self, if_false, hstate,
    hdispatch, settle]

end

/-! ### The crew of a workshop -/

section

variable {runner : TaskRunner} {how : WorkerStart} {kind : TaskKind} {ws : List Hand} {s : Workshop}
  {inputs outputs : List Path} {n : Nat} {p : Pool Hand}

structure Staffed (how : WorkerStart) (n : Nat) (p : Pool Hand) (s : Workshop) : Prop where
  state : p.state = .idle
  length : p.workers.length = n
  nodup : (p.workers.map Hand.number).Nodup
  resting : ∀ w ∈ p.workers, w.Resting how
  calm : s.Calm

theorem dispatchAll_hands (hws : ∀ w ∈ ws, w.Resting how) (hinputs : ws.length = inputs.length)
    (houtputs : ws.length = outputs.length)
    (hsendable : ∀ task ∈ tasksOf kind inputs outputs, task.Sendable) (s : Workshop) :
    dispatchAll kind ws (inputs.zip outputs) s
      = (.done, ws.map (Hand.busy kind),
        { s with errands := s.errands
            ++ (ws.zip (tasksOf kind inputs outputs)).map (Function.uncurry Hand.errand) }) := by
  have hfold : ∀ (jobs : List (Hand × Task)) (s : Workshop),
      jobs.foldl (fun s job => { s with errands := s.errands ++ [job.1.errand job.2] }) s
        = { s with errands := s.errands ++ jobs.map (Function.uncurry Hand.errand) } := by
    intro jobs
    induction jobs with
    | nil => simp
    | cons job jobs ih =>
        intro s
        obtain ⟨w, task⟩ := job
        rw [List.foldl_cons, ih]
        simp
  rw [← hfold]
  refine dispatchAll_done _ (fun w hw task hkind htask s => ?_) hinputs houtputs hsendable s
  rw [Hand.dispatch_resting (hws w hw) htask, hkind]

theorem awaitWithin_busy {w : Hand} {result : Except TaskError Nat}
    (h : w.Resting (.serving runner)) (hs : s.errands = [])
    (hanswer : s.answers w.number = some (LiveChild.answered runner kind result))
    (limit : Option Duration) :
    ∃ w', awaitWithin limit (w.busy kind) s = (TaskRunner.report w.worker.index kind result, w',
        { s with answers := Function.update s.answers w.number none })
      ∧ w'.Resting (.serving runner) ∧ w'.number = w.number := by
  cases limit with
  | none => exact Hand.awaitResult_busy h hs hanswer false
  | some limit =>
      obtain ⟨w', hawait, hresting, hnumber⟩ := Hand.awaitResult_busy h hs hanswer true
      refine ⟨w', ?_, hresting, hnumber⟩
      rw [awaitWithin, hawait]
      cases result <;> rfl

/-- When all processes have taken their turns, the answers are heard one after the other. -/
theorem awaitAll_answered {results : Nat → Except TaskError Nat}
    (hws : ∀ w ∈ ws, w.Resting (.serving runner)) (hnodup : (ws.map Hand.number).Nodup)
    (hs : s.errands = [])
    (hanswers : ∀ w ∈ ws,
      s.answers w.number = some (LiveChild.answered runner kind (results w.number)))
    (limit : Option Duration) :
    ∃ reply ws' s', awaitAll limit (ws.map (Hand.busy kind)) s = (reply, ws', s')
      ∧ ((∀ w ∈ ws, ∃ n, results w.number = .ok n) →
          reply = .done ∧ ws'.map Hand.number = ws.map Hand.number
            ∧ (∀ w ∈ ws', w.Resting (.serving runner))
            ∧ s' = { s with answers := fun i =>
                if i ∈ ws.map Hand.number then none else s.answers i })
      ∧ ((¬ ∀ w ∈ ws, ∃ n, results w.number = .ok n) → ∃ e, reply = .failed e) := by
  induction ws generalizing s with
  | nil => exact ⟨.done, [], s, rfl, by simp, by simp⟩
  | cons w ws ih =>
      rw [List.map_cons, List.nodup_cons] at hnodup
      obtain ⟨w', hawait, hresting, hnumber⟩ := awaitWithin_busy (hws w (by simp)) hs
        (hanswers w (by simp)) limit
      rw [List.map_cons, awaitAll, hawait, List.forall_mem_cons]
      cases hresult : results w.number with
      | error e => exact ⟨_, _, _, rfl, by simp, fun _ => ⟨_, rfl⟩⟩
      | ok count =>
          obtain ⟨reply, ws', s', hrest, hok, hfailed⟩ :=
            @ih { s with answers := Function.update s.answers w.number none }
              (fun w hw => hws w (by simp [hw])) hnodup.2 hs (by
                intro other hother
                have hne : other.number ≠ w.number := fun heq =>
                  hnodup.1 (heq ▸ List.mem_map_of_mem hother)
                simpa [Function.update_of_ne hne] using hanswers other (by simp [hother]))
          simp only [TaskRunner.report, hrest]
          refine ⟨reply, w' :: ws', s', rfl, ?_,
            fun hnot => hfailed fun hall => hnot ⟨⟨count, rfl⟩, hall⟩⟩
          rintro ⟨-, hall⟩
          obtain ⟨rfl, hnumbers, hrestings, rfl⟩ := hok hall
          refine ⟨rfl, by simp [hnumber, hnumbers], by simpa [hresting] using hrestings, ?_⟩
          simp only [List.map_cons, Workshop.mk.injEq, true_and]
          funext i
          by_cases hi : i = w.number
          · simp [hi]
          · simp only [List.mem_cons, hi, false_or, Function.update_of_ne hi]

theorem awaitAll_settle (hne : ws ≠ []) (limit : Option Duration) (s : Workshop) :
    awaitAll limit ws s = awaitAll limit ws s.settle := by
  obtain ⟨w, ws, rfl⟩ := List.exists_cons_of_ne_nil hne
  have hawait : ∀ bounded,
      Worker.awaitResult bounded w s = Worker.awaitResult bounded w s.settle := by
    intro bounded
    simp only [Worker.awaitResult, Hand.awaitResult, Workshop.settle_settle]
  cases limit <;> simp only [awaitAll, awaitWithin, hawait]

/-- The tasks that were handed to hands with these numbers. -/
theorem map_errand {tasks : List Task} (hws : ∀ w ∈ ws, w.Resting (.serving runner)) :
    (ws.zip tasks).map (Function.uncurry Hand.errand)
      = ((ws.map Hand.number).zip tasks).map (Errand.ofTask runner) := by
  rw [List.zip_map_left, List.map_map]
  refine List.map_congr_left fun ⟨w, task⟩ hjob => ?_
  have hprocess := (hws w (List.of_mem_zip hjob).1).1.process
  simp [Hand.errand, hprocess, Errand.ofTask]

/-- When the tasks have been handed over, awaiting them comes to carrying them out in some order. -/
theorem awaitAll_handed (hws : ∀ w ∈ ws, w.Resting (.serving runner))
    (hnodup : (ws.map Hand.number).Nodup) (hne : ws ≠ []) (hs : s.Calm) {tasks : List Task}
    (hlength : ws.length = tasks.length)
    (htasks : ∀ task ∈ tasks, task.kind = kind ∧ task.Sendable) (limit : Option Duration) :
    ∃ (tasks' : List Task) (reply : Reply) (ws' : List Hand) (s' : Workshop),
      awaitAll limit (ws.map (Hand.busy kind))
          { s with errands := (ws.zip tasks).map (Function.uncurry Hand.errand) }
        = (reply, ws', s')
      ∧ tasks'.Perm tasks
      ∧ (AllOk (runner.runEach s.files tasks').1 →
          reply = .done ∧ ws'.map Hand.number = ws.map Hand.number
            ∧ (∀ w ∈ ws', w.Resting (.serving runner)) ∧ s'.Calm
            ∧ s'.files = (runner.runEach s.files tasks').2)
      ∧ (¬ AllOk (runner.runEach s.files tasks').1 → ∃ e, reply = .failed e) := by
  let jobs := (ws.map Hand.number).zip tasks
  let handed : Workshop := { s with errands := jobs.map (Errand.ofTask runner) }
  have hlength' : (ws.map Hand.number).length = tasks.length := by rw [List.length_map, hlength]
  have hnumbers : jobs.map Prod.fst = ws.map Hand.number :=
    List.map_fst_zip (Nat.le_of_eq hlength')
  have hjobs : ∀ job ∈ jobs, job.2.kind = kind ∧ job.2.Sendable :=
    fun job hjob => htasks job.2 (List.of_mem_zip hjob).2
  obtain ⟨tasks', results, hperm, hsettle, hiff⟩ := @Workshop.settle_dispatched handed runner kind
    jobs (hnumbers ▸ hnodup) hjobs rfl hs.answers
  have hanswers : ∀ w ∈ ws, handed.settle.answers w.number
      = some (LiveChild.answered runner kind (results w.number)) := by
    intro w hw
    rw [hsettle, hnumbers]
    exact if_pos (List.mem_map_of_mem hw)
  obtain ⟨reply, ws', s', hawait, hok, hfailed⟩ := awaitAll_answered hws hnodup
    handed.errands_settle hanswers limit
  have hall : AllOk (runner.runEach s.files tasks').1
      ↔ ∀ w ∈ ws, ∃ n, results w.number = .ok n := by
    rw [hiff, hnumbers, List.forall_mem_map]
  rw [show jobs.map Prod.snd = tasks from List.map_snd_zip (Nat.le_of_eq hlength'.symm)] at hperm
  rw [← awaitAll_settle (by simpa using hne)] at hawait
  rw [map_errand hws]
  refine ⟨tasks', reply, ws', s', hawait, hperm, fun hruns => ?_, fun hnot => ?_⟩
  · obtain ⟨rfl, hnumbers', hresting, rfl⟩ := hok (hall.mp hruns)
    refine ⟨rfl, hnumbers', hresting, ⟨handed.errands_settle, fun i => ?_⟩, by rw [hsettle]⟩
    rw [hsettle]
    dsimp only
    split
    · rfl
    · next hi => rw [if_neg (hnumbers ▸ hi)]
  · exact hfailed (mt hall.mpr hnot)

/-- A phase whose tasks can be sent comes to the same as its tasks in some order. -/
theorem runPhase_sent (h : Staffed (.serving runner) n p s) (hn : 0 < n)
    (hinputs : inputs.length = p.workers.length) (houtputs : outputs.length = p.workers.length)
    (hsendable : ∀ task ∈ tasksOf kind inputs outputs, task.Sendable) :
    CarriedOut (.serving runner) kind inputs outputs s.files (Staffed (.serving runner) n)
      (p.runPhase kind inputs outputs s) := by
  have hne : p.workers ≠ [] := List.length_pos_iff.mp (h.length ▸ hn)
  have hdispatch := dispatchAll_hands h.resting hinputs.symm houtputs.symm hsendable s
  rw [h.calm.errands, List.nil_append] at hdispatch
  obtain ⟨tasks, reply, ws', s', hawait, hperm, hok, hfailed⟩ := awaitAll_handed h.resting h.nodup
    hne h.calm (by simp [tasksOf, hinputs, houtputs])
    (fun task htask => ⟨kind_of_mem_tasksOf htask, hsendable task htask⟩) p.taskTimeout
  rw [runPhase_dispatched h.state hinputs houtputs hdispatch hawait]
  by_cases hruns : AllOk (runner.runEach s.files tasks).1
  · obtain ⟨rfl, hnumbers, hresting, hcalm, hfiles⟩ := hok hruns
    have hlength := congrArg List.length hnumbers
    rw [List.length_map, List.length_map, h.length] at hlength
    exact .ok rfl (fun task htask => hsendable task (hperm.mem_iff.mp htask)) hperm hruns hfiles
      ⟨rfl, hlength, hnumbers ▸ h.nodup, hresting, hcalm⟩
  · obtain ⟨e, rfl⟩ := hfailed hruns
    refine .failed (fun runner' hserving _ => ⟨tasks, hperm, ?_⟩) rfl
    obtain rfl := WorkerStart.serving.inj hserving
    exact hruns

theorem runPhase_leaving {code : Nat} {diagnostics : String}
    (h : Staffed (.leaving code diagnostics) n p s) (hn : 0 < n)
    (hinputs : inputs.length = p.workers.length) (houtputs : outputs.length = p.workers.length)
    (hsendable : ∀ task ∈ tasksOf kind inputs outputs, task.Sendable) :
    CarriedOut (.leaving code diagnostics) kind inputs outputs s.files
      (Staffed (.leaving code diagnostics) n) (p.runPhase kind inputs outputs s) := by
  let errands := (p.workers.zip (tasksOf kind inputs outputs)).map (Function.uncurry Hand.errand)
  let handed : Workshop := { s with errands := errands }
  have hdispatch := dispatchAll_hands h.resting hinputs.symm houtputs.symm hsendable s
  rw [h.calm.errands, List.nil_append] at hdispatch
  have hleaving : ∀ errand ∈ errands, ∃ status, errand.process = .leaving status := by
    intro errand herrand
    obtain ⟨⟨w, task⟩, hmem, rfl⟩ := List.mem_map.mp herrand
    have hw : w.worker = _ := h.resting w (List.of_mem_zip hmem).1
    exact ⟨.ofCode code, by rw [Function.uncurry_apply_pair, Hand.errand, hw]; rfl⟩
  obtain ⟨w, ws, hws⟩ := List.exists_cons_of_length_pos (h.length ▸ hn)
  obtain ⟨e, ws', s', hawait⟩ := awaitAll_failed (fun bounded => @Hand.awaitResult_leaving kind w
    handed code diagnostics (h.resting w (by simp [hws]))
    (fun i answer => @Workshop.silence_of_settle handed hleaving h.calm.answers i answer) bounded)
    (ws.map (Hand.busy kind)) p.taskTimeout
  rw [← List.map_cons, ← hws] at hawait
  rw [runPhase_dispatched h.state hinputs houtputs hdispatch hawait]
  exact .failed (fun _ hserving => by cases hserving) rfl

theorem runPhase_staffed (h : Staffed how n p s) (hn : 0 < n) (hinputs : inputs.length = n)
    (houtputs : outputs.length = n) :
    CarriedOut how kind inputs outputs s.files (Staffed how n)
      (p.runPhase kind inputs outputs s) := by
  rw [← h.length] at hinputs houtputs
  by_cases hsendable : ∀ task ∈ tasksOf kind inputs outputs, task.Sendable
  · cases how with
    | serving runner => exact runPhase_sent h hn hinputs houtputs hsendable
    | leaving code diagnostics => exact runPhase_leaving h hn hinputs houtputs hsendable
  · obtain ⟨e, ws', s', hdispatch⟩ := dispatchAll_unsendable
      (fun w hw task htask s => ⟨_, _, Hand.dispatch_resting hw htask s⟩)
      (fun w hw task htask s => Hand.dispatch_unsendable hw htask s) h.resting hinputs.symm
      houtputs.symm hsendable s
    rw [runPhase_failed h.state hinputs houtputs hdispatch]
    exact .failed (fun _ _ hall => absurd hall hsendable) rfl

theorem close_staffed (h : Staffed (.serving runner) n p s) :
    ∃ ws s', p.close s = (.ok (), ws, s') ∧ s'.files = s.files := by
  have hterminate : ∀ w ∈ p.workers, ∀ s', s'.Calm ∧ s'.files = s.files →
      ∃ w' s'', Worker.terminate w s' = (.done, w', s'') ∧ s''.Calm ∧ s''.files = s.files := by
    rintro w hw s' ⟨hcalm, hfiles⟩
    rw [← hfiles]
    exact Hand.terminate_resting (h.resting w hw) hcalm
  obtain ⟨ws, s', hclose, -, hfiles⟩ := close_of_terminate h.state hterminate ⟨h.calm, rfl⟩
  exact ⟨ws, s', hclose, hfiles⟩

/-- The processes of a workshop are a crew. -/
theorem crew_workshop (program : Path) (arguments : List Bytes) (how : WorkerStart) :
    Crew program arguments how (Workshop.start program arguments how) Workshop.Calm
      (Staffed how) where
  files_setFiles _ _ := rfl
  calm_setFiles _ _ h := ⟨h.errands, h.answers⟩
  ready_setFiles _ _ _ _ h :=
    ⟨h.state, h.length, h.nodup, h.resting, h.calm.errands, h.calm.answers⟩
  ready_withTaskTimeout _ _ _ _ h := ⟨h.state, h.length, h.nodup, h.resting, h.calm⟩
  openWith_found n s hn hs hfound := by
    have hstart : ∀ index, ∃ w, Workshop.start program arguments how index s = (.ok w, s)
        ∧ (w.Resting how ∧ w.number = index) := by
      intro index
      refine ⟨_, ?_, Hand.resting_ofChild how index, rfl⟩
      rw [Workshop.start, show Launch.findProgram program arguments s.files = _ from hfound]
    obtain ⟨hired, hopen, hhired⟩ := openWith_hired hstart hn
    refine ⟨_, s, hopen, ⟨rfl, ?_, ?_, ?_, hs⟩, rfl⟩
    · rw [ofWorkers, ← hhired.length_eq, List.length_range]
    · have hnumbers : hired.map Hand.number = List.range n := by
        rw [← List.forall₂_eq_eq_eq, List.forall₂_map_left_iff]
        exact hhired.flip.imp fun _ _ h => h.2
      rw [ofWorkers, hnumbers]
      exact List.nodup_range
    · intro w hw
      obtain ⟨_, -, hresting, -⟩ := exists_mem_of_forall₂ hhired hw
      exact hresting
  openWith_missing n s hn hmissing := by
    have hstart : ∃ e, Workshop.start program arguments how 0 s = (.error e, s) := by
      rw [Workshop.start]
      cases hfound : Launch.findProgram program arguments s.files with
      | error e => exact ⟨_, rfl⟩
      | ok _ => exact absurd hfound hmissing
    obtain ⟨e, hstart⟩ := hstart
    exact openWith_failed hn hstart
  runPhase n p s kind inputs outputs hn h hinputs houtputs := runPhase_staffed h hn hinputs houtputs
  close_ready n p s runner hserving h := by
    subst hserving
    exact close_staffed h
  close_failed p s h := by
    obtain ⟨ws, hclose⟩ := close_of_kill h Hand.kill_eq s
    exact ⟨ws, s, hclose⟩

end

/-! ### The crew of a program -/

section

variable {how : WorkerStart} {kind : TaskKind} {w : ProcessWorker AnyChild} {t : FileTree}
  {inputs outputs : List Path} {n : Nat} {p : Pool (ProcessWorker AnyChild)}

/-- The worker has no task, and its process goes on as it has begun. -/
def Unassigned (how : WorkerStart) (w : ProcessWorker AnyChild) : Prop :=
  match how with
  | .serving runner => LiveWorker.Resting runner w
  | .leaving code _ => w = .ofChild w.index (.live (.leaving (.ofCode code))) ⟨[], true⟩

/-- A pool of such workers, which can start a phase. -/
structure Manned (how : WorkerStart) (n : Nat) (p : Pool (ProcessWorker AnyChild)) : Prop where
  state : p.state = .idle
  length : p.workers.length = n
  unassigned : ∀ w ∈ p.workers, Unassigned how w

theorem dispatch_leaving {code : Nat} {diagnostics : String}
    (h : Unassigned (.leaving code diagnostics) w) {task : Task} (htask : task.Sendable)
    (t : FileTree) :
    Worker.dispatch task w t = (.done, w.assigned task.kind, t) := by
  obtain ⟨index, state, child, inputOpen, incoming, ended, decoder⟩ := w
  obtain ⟨rfl, rfl, rfl, rfl, rfl, rfl⟩ := h
  simp [Worker.dispatch, ProcessWorker.dispatch, htask.ofTask, ProcessWorker.send,
    Child.takeLine, AnyChild.takeLine, LiveChild.takeLine, ProcessWorker.react, Reaction.silence,
    ProcessWorker.assigned]

theorem awaitResult_leaving {code : Nat} {diagnostics : String}
    (h : Unassigned (.leaving code diagnostics) w) (kind : TaskKind) (t : FileTree)
    (bounded : Bool) :
    ∃ e w' t', Worker.awaitResult bounded (w.assigned kind) t = (.failed e, w', t') := by
  obtain ⟨index, state, child, inputOpen, incoming, ended, decoder⟩ := w
  obtain ⟨rfl, rfl, rfl, rfl, rfl, rfl⟩ := h
  simp only [Worker.awaitResult, ProcessWorker.awaitResult, ProcessWorker.assigned]
  rw [ProcessWorker.awaitStatus_of_nothing rfl rfl rfl]
  exact ⟨_, _, _, rfl⟩

theorem Unassigned.dispatch (h : Unassigned how w) {task : Task} (htask : task.Sendable)
    (t : FileTree) :
    ∃ w' t', Worker.dispatch task w t = (.done, w', t') := by
  cases how with
  | serving runner =>
      obtain ⟨w', hdispatch, -⟩ := LiveWorker.dispatch_resting h htask.1 htask.2 t
      exact ⟨w', _, hdispatch⟩
  | leaving code diagnostics => exact ⟨_, t, dispatch_leaving h htask t⟩

theorem Unassigned.dispatch_unsendable (h : Unassigned how w) {task : Task}
    (htask : ¬ task.Sendable) (t : FileTree) :
    ∃ e w' t', Worker.dispatch task w t = (.failed e, w', t') := by
  have hstate : w.state = .idle := by
    cases how with
    | serving runner => exact LiveWorker.Resting.state h
    | leaving code diagnostics => rw [Unassigned] at h; rw [h]; rfl
  obtain ⟨e, hdispatch⟩ := w.dispatch_unsendable hstate htask t
  exact ⟨e, w, t, hdispatch⟩

theorem dispatchAll_leaving {code : Nat} {diagnostics : String}
    {ws : List (ProcessWorker AnyChild)}
    (hws : ∀ w ∈ ws, Unassigned (.leaving code diagnostics) w) (hinputs : ws.length = inputs.length)
    (houtputs : ws.length = outputs.length)
    (hsendable : ∀ task ∈ tasksOf kind inputs outputs, task.Sendable) (t : FileTree) :
    dispatchAll kind ws (inputs.zip outputs) t
      = (.done, ws.map (ProcessWorker.assigned kind), t) := by
  have hsent : ∀ w ∈ ws, ∀ task : Task, task.kind = kind → task.Sendable → ∀ t,
      Worker.dispatch task w t = (.done, w.assigned kind, t) := by
    rintro w hw task rfl htask t
    exact dispatch_leaving (hws w hw) htask t
  rw [dispatchAll_done (fun t _ => t) hsent hinputs houtputs hsendable,
    List.foldl_fixed]

theorem runPhase_live {runner : TaskRunner} (h : Manned (.serving runner) n p)
    (hinputs : inputs.length = n) (houtputs : outputs.length = n)
    (hsendable : ∀ task ∈ tasksOf kind inputs outputs, task.Sendable) (t : FileTree) :
    CarriedOut (.serving runner) kind inputs outputs t (fun p _ => Manned (.serving runner) n p)
      (p.runPhase kind inputs outputs t) := by
  have hlength := hinputs.trans houtputs.symm
  have hpaths : ∀ path ∈ inputs ++ outputs, Command.isSendable path = true := by
    intro path hpath
    rcases List.mem_append.mp hpath with hpath | hpath
    · rw [← map_input_tasksOf kind hlength] at hpath
      obtain ⟨task, htask, rfl⟩ := List.mem_map.mp hpath
      exact (hsendable task htask).1
    · rw [← map_output_tasksOf kind hlength] at hpath
      obtain ⟨task, htask, rfl⟩ := List.mem_map.mp hpath
      exact (hsendable task htask).2
  obtain ⟨reply, p', hphase, hok, hfailed⟩ := @runPhase_ready runner kind inputs outputs n p
    ⟨h.state, h.length, h.unassigned⟩ hinputs houtputs hpaths t
  rw [hphase]
  by_cases hall : AllOk (runner.runEach t (tasksOf kind inputs outputs)).1
  · obtain ⟨rfl, hready⟩ := hok hall
    exact .ok rfl hsendable (.refl _) hall rfl ⟨hready.state, hready.length, hready.resting⟩
  · obtain ⟨⟨e, rfl⟩, hstate⟩ := hfailed hall
    refine .failed (fun runner' hserving _ => ⟨_, .refl _, ?_⟩) hstate
    obtain rfl := WorkerStart.serving.inj hserving
    exact hall

theorem runPhase_manned (h : Manned how n p) (hn : 0 < n) (hinputs : inputs.length = n)
    (houtputs : outputs.length = n) (t : FileTree) :
    CarriedOut how kind inputs outputs t (fun p _ => Manned how n p)
      (p.runPhase kind inputs outputs t) := by
  have hinputs' := hinputs.trans h.length.symm
  have houtputs' := houtputs.trans h.length.symm
  by_cases hsendable : ∀ task ∈ tasksOf kind inputs outputs, task.Sendable
  · cases how with
    | serving runner => exact runPhase_live h hinputs houtputs hsendable t
    | leaving code diagnostics =>
        obtain ⟨w, ws, hws⟩ := List.exists_cons_of_length_pos (h.length ▸ hn)
        obtain ⟨e, ws', t', hawait⟩ := awaitAll_failed
          (awaitResult_leaving (h.unassigned w (by simp [hws])) kind t)
          (ws.map (ProcessWorker.assigned kind)) p.taskTimeout
        rw [← List.map_cons, ← hws] at hawait
        rw [runPhase_dispatched h.state hinputs' houtputs' (dispatchAll_leaving h.unassigned
          hinputs'.symm houtputs'.symm hsendable t) hawait]
        exact .failed (fun _ hserving => nomatch hserving) rfl
  · obtain ⟨e, ws', t', hdispatch⟩ := dispatchAll_unsendable
      (fun w hw task htask t => Unassigned.dispatch hw htask t)
      (fun w hw task htask t => Unassigned.dispatch_unsendable hw htask t) h.unassigned
      hinputs'.symm houtputs'.symm hsendable t
    rw [runPhase_failed h.state hinputs' houtputs' hdispatch]
    exact .failed (fun _ _ hall => absurd hall hsendable) rfl

/-- The processes of a program, which act at once, are a crew, so that the result of a job with them
can be compared to that of a job with the workers of a workshop. -/
theorem crew_program (program : Path) (arguments : List Bytes) :
    Crew program arguments (CommandLine.startWorker arguments)
      (Launch.program program arguments).start (fun _ : FileTree => True)
      (fun n p _ => Manned (CommandLine.startWorker arguments) n p) where
  files_setFiles _ _ := rfl
  calm_setFiles _ _ _ := trivial
  ready_setFiles _ _ _ _ h := h
  ready_withTaskTimeout _ _ _ _ h := ⟨h.state, h.length, h.unassigned⟩
  openWith_found n t hn _ hfound := by
    have hstart : ∀ index, ∃ w, (Launch.program program arguments).start index t = (.ok w, t)
        ∧ Unassigned (CommandLine.startWorker arguments) w := by
      intro index
      refine ⟨.ofChild index (.live (LiveChild.begin (CommandLine.startWorker arguments)).1)
        (LiveChild.begin (CommandLine.startWorker arguments)).2, ?_, ?_⟩
      · rw [Launch.start, show Launch.findProgram program arguments t = _ from hfound,
          LiveChild.start_eq_begin]
      · cases CommandLine.startWorker arguments with
        | serving runner => exact LiveWorker.resting_ofChild runner index
        | leaving code diagnostics => rfl
    obtain ⟨hired, hopen, hhired⟩ := openWith_hired hstart hn
    refine ⟨_, t, hopen, ⟨rfl, ?_, ?_⟩, rfl⟩
    · rw [ofWorkers, ← hhired.length_eq, List.length_range]
    · intro w hw
      obtain ⟨_, -, hunassigned⟩ := exists_mem_of_forall₂ hhired hw
      exact hunassigned
  openWith_missing n t hn hmissing := by
    have hstart : ∃ e, (Launch.program program arguments).start 0 t = (.error e, t) := by
      rw [Launch.start]
      cases hfound : Launch.findProgram program arguments t with
      | error e => exact ⟨_, rfl⟩
      | ok _ => exact absurd hfound hmissing
    obtain ⟨e, hstart⟩ := hstart
    exact openWith_failed hn hstart
  runPhase n p t kind inputs outputs hn h hinputs houtputs :=
    runPhase_manned h hn hinputs houtputs t
  close_ready n p t runner hserving h := by
    rw [hserving] at h
    obtain ⟨ws, hclose⟩ := @close_ready runner n p ⟨h.state, h.length, h.unassigned⟩ t
    exact ⟨ws, t, hclose, rfl⟩
  close_failed p t h := by
    obtain ⟨ws, hclose⟩ := close_of_kill h LiveWorker.kill_eq t
    exact ⟨ws, t, hclose⟩

end

end Pool

end MapReduce
