import Mathlib.Data.List.Perm.Basic
import Mathlib.Logic.Function.Basic
import MapReduce.Job
import MapReduce.Proofs.Pool.Live

/-!
# A workshop of processes

In a workshop nothing says when a process carries out a line that was written to it, only that it
has by the time its output is awaited. The processes that have a line in front of them then take
turns, in an order that is anybody's choice.
-/

namespace MapReduce

open ProcessWorker (Unread lineLimit)

/-- A line in front of a process that has not read it yet. -/
structure Errand where
  number : Nat
  line : Bytes
  process : LiveChild

/-- Who takes a turn after whom. -/
structure Schedule where
  arrange : List Errand → List Errand
  perm : ∀ errands, (arrange errands).Perm errands

structure Workshop where
  files : FileTree
  schedule : Schedule
  errands : List Errand
  /-- What became of the processes that took a turn, and what they wrote. -/
  answers : Nat → Option (LiveChild × Reaction)

instance : HasFiles Workshop where
  files := Workshop.files
  setFiles t s := { s with files := t }

/-- The coordinator's end of a process. -/
structure Handle where
  number : Nat
  process : LiveChild

namespace Workshop

def ofFiles (schedule : Schedule) (t : FileTree) : Workshop :=
  ⟨t, schedule, [], fun _ => none⟩

def takeTurn (s : Workshop) (errand : Errand) : Workshop :=
  let (result, process, t) := errand.process.takeLine errand.line s.files
  let reaction := result.toOption.getD .silence
  { s with
    files := t
    answers := Function.update s.answers errand.number (some (process, reaction)) }

/-- Everybody who has a line in front of them takes a turn. -/
def settle (s : Workshop) : Workshop :=
  (s.schedule.arrange s.errands).foldl takeTurn { s with errands := [] }

/-- Hears what a process wrote in its last turn. -/
def collect (s : Workshop) (handle : Handle) : Reaction × Handle × Workshop :=
  match s.answers handle.number with
  | none => (.silence, handle, s)
  | some (process, reaction) =>
    (reaction, { handle with process },
      { s with answers := Function.update s.answers handle.number none })

end Workshop

namespace Handle

def takeLine (line : Bytes) (handle : Handle) (s : Workshop) :
    Except IoError Reaction × Handle × Workshop :=
  match handle.process with
  | .exited _ => (.error .brokenPipe, handle, s)
  | process =>
    (.ok .silence, handle, { s with errands := s.errands ++ [⟨handle.number, line, process⟩] })

def takeEnd (handle : Handle) (s : Workshop) : Reaction × Handle × Workshop :=
  let (heard, handle, s) := s.settle.collect handle
  let (reaction, process, t) := handle.process.takeEnd s.files
  (⟨heard.arrivals ++ reaction.arrivals, heard.ended || reaction.ended⟩, { handle with process },
    { s with files := t })

instance : Child Handle Workshop where
  takeLine := takeLine
  takeEnd := takeEnd
  poll handle := (.ok handle.process.exit?, handle)
  wait handle := (.ok handle.process.exit?, handle)
  stop handle := (.ok handle.process.stop.1, { handle with process := handle.process.stop.2 })

end Handle

/-- A worker whose process has taken its turn when the result is awaited. -/
structure Hand where
  worker : ProcessWorker Handle

namespace Hand

def number (w : Hand) : Nat :=
  w.worker.child.number

def call (result : Reply × ProcessWorker Handle × Workshop) : Reply × Hand × Workshop :=
  (result.1, ⟨result.2.1⟩, result.2.2)

def awaitResult (bounded : Bool) (w : Hand) (s : Workshop) : Reply × Hand × Workshop :=
  let (reaction, handle, s) := s.settle.collect w.worker.child
  call ((w.worker.react handle reaction).awaitResult bounded s)

instance : Worker Hand Workshop where
  index w := w.worker.index
  state w := w.worker.state
  dispatch task w s := call (w.worker.dispatch task s)
  awaitResult := awaitResult
  terminate w s := call (w.worker.terminate s)
  kill w s := call (w.worker.kill s)

end Hand

namespace LiveChild

def begin : CommandLine.WorkerStart → LiveChild × Reaction
  | .serving runner => (.serving runner, .silence)
  | .leaving code _ => (.leaving (.ofCode code), ⟨[], true⟩)

theorem start_eq_begin (arguments : List Bytes) :
    start arguments = begin (CommandLine.startWorker arguments) := by
  rw [start]
  cases CommandLine.startWorker arguments <;> rfl

end LiveChild

/-- Starts a process of the program, which begins like this. -/
def Workshop.start (program : Path) (arguments : List Bytes) (how : CommandLine.WorkerStart)
    (index : Nat) (s : Workshop) : Except WorkerError Hand × Workshop :=
  match Launch.findProgram program arguments s.files with
  | .error e => (.error (.spawn index program.show e), s)
  | .ok _ =>
    let (process, reaction) := LiveChild.begin how
    (.ok ⟨.ofChild index ⟨index, process⟩ reaction⟩, s)

namespace Workshop

variable {s : Workshop} {t : FileTree}

/-- Nobody has anything to do or to say. -/
structure Calm (s : Workshop) : Prop where
  errands : s.errands = []
  answers : ∀ i, s.answers i = none

theorem calm_ofFiles (schedule : Schedule) (t : FileTree) : (ofFiles schedule t).Calm :=
  ⟨rfl, fun _ => rfl⟩

theorem settle_of_nil (h : s.errands = []) : s.settle = s := by
  obtain ⟨files, schedule, errands, answers⟩ := s
  obtain rfl : errands = [] := h
  have hnil := (schedule.perm []).eq_nil
  simp only [settle, hnil, List.foldl_nil]

theorem settle_singleton {errand : Errand} (h : s.errands = [errand]) :
    s.settle = takeTurn { s with errands := [] } errand := by
  have hsingle := List.perm_singleton.mp (s.schedule.perm [errand])
  simp only [settle, h, hsingle, List.foldl_cons, List.foldl_nil]

theorem errands_foldl_takeTurn (errands : List Errand) (s : Workshop) :
    (errands.foldl takeTurn s).errands = s.errands := by
  induction errands generalizing s with
  | nil => rfl
  | cons errand errands ih => exact ih (s.takeTurn errand)

@[simp]
theorem errands_settle (s : Workshop) : s.settle.errands = [] :=
  errands_foldl_takeTurn _ _

theorem settle_settle (s : Workshop) : s.settle.settle = s.settle :=
  settle_of_nil s.errands_settle

end Workshop

/-! ### Turns -/

/-- The errand of a task that was handed to a serving process. -/
def Errand.ofTask (runner : TaskRunner) (job : Nat × Task) : Errand :=
  ⟨job.1, (Bytes.ofString (Command.line (.run job.2))).terminate, .serving runner⟩

/-- A process that answered a task. -/
def LiveChild.answered (runner : TaskRunner) (kind : TaskKind) (result : Except TaskError Nat) :
    LiveChild × Reaction :=
  (.serving runner, .text (LiveChild.statusLine (.ofResult kind result)))

namespace Workshop

variable {s : Workshop} {runner : TaskRunner} {kind : TaskKind}

theorem takeTurn_ofTask {job : Nat × Task} (h : job.2.Sendable) (s : Workshop) :
    s.takeTurn (.ofTask runner job)
      = { s with
          files := (runner.run job.2 s.files).2
          answers := Function.update s.answers job.1
            (some (LiveChild.answered runner job.2.kind (runner.run job.2 s.files).1)) } := by
  simp only [takeTurn, Errand.ofTask, LiveChild.takeLine, runner.serve_line h.1 h.2,
    LiveWorker.line_ne_done h.1 h.2, if_false, TaskRunner.contents_heard]
  rfl

/-- Turns of processes with a task each carry out the tasks in the order of the turns. -/
theorem foldl_takeTurn {jobs : List (Nat × Task)} (hnodup : (jobs.map Prod.fst).Nodup)
    (hjobs : ∀ job ∈ jobs, job.2.kind = kind ∧ job.2.Sendable) (s : Workshop) :
    ∃ results : Nat → Except TaskError Nat,
      (jobs.map (Errand.ofTask runner)).foldl takeTurn s
          = { s with
              files := (runner.runEach s.files (jobs.map Prod.snd)).2
              answers := fun i => if i ∈ jobs.map Prod.fst then
                some (LiveChild.answered runner kind (results i)) else s.answers i }
        ∧ (AllOk (runner.runEach s.files (jobs.map Prod.snd)).1
            ↔ ∀ i ∈ jobs.map Prod.fst, ∃ n, results i = .ok n) := by
  induction jobs generalizing s with
  | nil => exact ⟨fun _ => .ok 0, rfl, by simp [TaskRunner.runEach, AllOk]⟩
  | cons job jobs ih =>
      obtain ⟨i, task⟩ := job
      rw [List.map_cons, List.nodup_cons] at hnodup
      obtain ⟨rfl, hsendable⟩ := hjobs (i, task) (by simp)
      obtain ⟨results, hfold, hiff⟩ := ih hnodup.2 (fun job hjob => hjobs job (by simp [hjob]))
        (s.takeTurn (.ofTask runner (i, task)))
      have hother : ∀ j ∈ jobs.map Prod.fst, j ≠ i := by
        rintro j hj rfl
        exact hnodup.1 hj
      refine ⟨Function.update results i (runner.run task s.files).1, ?_, ?_⟩
      · rw [List.map_cons, List.foldl_cons, hfold, takeTurn_ofTask hsendable]
        simp only [List.map_cons, TaskRunner.runEach_cons, mk.injEq, true_and]
        funext j
        by_cases hj : j = i
        · subst hj
          simp [hnodup.1]
        · simp only [Function.update_of_ne hj, List.mem_cons, hj, false_or]
      · rw [takeTurn_ofTask hsendable] at hiff
        rw [List.map_cons, List.map_cons, TaskRunner.runEach_cons, allOk_cons_iff, hiff,
          List.forall_mem_cons, Function.update_self]
        refine and_congr_right fun _ => forall₂_congr fun j hj => ?_
        rw [Function.update_of_ne (hother j hj)]

/-- When all processes have taken their turns, their tasks have been carried out in some order. -/
theorem settle_dispatched {jobs : List (Nat × Task)} (hnodup : (jobs.map Prod.fst).Nodup)
    (hjobs : ∀ job ∈ jobs, job.2.kind = kind ∧ job.2.Sendable)
    (herrands : s.errands = jobs.map (Errand.ofTask runner)) (hanswers : ∀ i, s.answers i = none) :
    ∃ (tasks : List Task) (results : Nat → Except TaskError Nat),
      tasks.Perm (jobs.map Prod.snd)
        ∧ s.settle = { s with
            errands := []
            files := (runner.runEach s.files tasks).2
            answers := fun i => if i ∈ jobs.map Prod.fst then
              some (LiveChild.answered runner kind (results i)) else none }
        ∧ (AllOk (runner.runEach s.files tasks).1
            ↔ ∀ i ∈ jobs.map Prod.fst, ∃ n, results i = .ok n) := by
  have hforall : List.Forall₂ (fun errand job => errand = Errand.ofTask runner job)
      (jobs.map (Errand.ofTask runner)) jobs := by
    rw [List.forall₂_map_left_iff, List.forall₂_same]
    exact fun _ _ => rfl
  obtain ⟨jobs', hjobs', hperm⟩ := List.perm_comp_forall₂
    (herrands ▸ s.schedule.perm s.errands) hforall
  have harrange : s.schedule.arrange s.errands = jobs'.map (Errand.ofTask runner) := by
    rw [← List.forall₂_eq_eq_eq, List.forall₂_map_right_iff, herrands]
    exact hjobs'
  obtain ⟨results, hfold, hiff⟩ := foldl_takeTurn ((hperm.map Prod.fst).nodup_iff.mpr hnodup)
    (fun job hjob => hjobs job (hperm.mem_iff.mp hjob)) { s with errands := [] }
  refine ⟨jobs'.map Prod.snd, results, hperm.map _, ?_, ?_⟩
  · rw [settle, harrange, hfold]
    simp only [(hperm.map Prod.fst).mem_iff, hanswers]
  · rw [hiff]
    simp only [(hperm.map Prod.fst).mem_iff]

/-- Processes that leave have nothing to say. -/
theorem silence_of_settle
    (herrands : ∀ errand ∈ s.errands, ∃ status, errand.process = .leaving status)
    (hanswers : ∀ i, s.answers i = none) {i : Nat} {answer : LiveChild × Reaction}
    (h : s.settle.answers i = some answer) : answer.2 = .silence := by
  have hfold : ∀ (errands : List Errand) (s : Workshop),
      (∀ errand ∈ errands, ∃ status, errand.process = .leaving status) →
      (∀ i answer, s.answers i = some answer → answer.2 = .silence) →
      ∀ i answer, (errands.foldl takeTurn s).answers i = some answer → answer.2 = .silence := by
    intro errands
    induction errands with
    | nil => exact fun s _ hs => hs
    | cons errand errands ih =>
        intro s hall hs
        rw [List.forall_mem_cons] at hall
        refine ih _ hall.2 fun i answer hanswer => ?_
        obtain ⟨status, hprocess⟩ := hall.1
        simp only [takeTurn, hprocess, LiveChild.takeLine, Except.toOption, Option.getD_some,
          Function.update_apply] at hanswer
        split at hanswer
        · rw [← Option.some.inj hanswer]
        · exact hs i answer hanswer
  refine hfold _ _ (fun errand herrand => ?_) (fun i answer hanswer => ?_) i answer h
  · exact herrands errand ((s.schedule.perm s.errands).mem_iff.mp herrand)
  · rw [hanswers i] at hanswer
    cases hanswer

end Workshop

/-! ### Workers of a workshop -/

namespace Hand

variable {runner : TaskRunner} {kind : TaskKind} {w : Hand} {task : Task} {s : Workshop}
  {how : CommandLine.WorkerStart}

/-- The process is serving, and everything that it wrote has been heard. -/
structure Serving (runner : TaskRunner) (w : Hand) : Prop where
  process : w.worker.child.process = .serving runner
  inputOpen : w.worker.inputOpen = true
  ended : w.worker.ended = false
  lull_notMem : Arrival.lull ∉ w.worker.incoming
  unread : Unread lineLimit w.worker.decoder w.worker.incoming [] []

/-- The worker has no task, and its process goes on as it has begun. -/
def Resting : CommandLine.WorkerStart → Hand → Prop
  | .serving runner, w => w.Serving runner ∧ w.worker.state = .idle
  | .leaving code _, w =>
    w.worker = .ofChild w.worker.index ⟨w.number, .leaving (.ofCode code)⟩ ⟨[], true⟩

theorem resting_ofChild (how : CommandLine.WorkerStart) (index : Nat) :
    Resting how ⟨.ofChild index ⟨index, (LiveChild.begin how).1⟩ (LiveChild.begin how).2⟩ := by
  cases how with
  | serving runner =>
      have hfresh := LiveWorker.resting_ofChild runner index
      exact ⟨⟨rfl, rfl, rfl, hfresh.lull_notMem, hfresh.unread⟩, rfl⟩
  | leaving code diagnostics => rfl

def busy (kind : TaskKind) (w : Hand) : Hand :=
  ⟨w.worker.assigned kind⟩

def errand (w : Hand) (task : Task) : Errand :=
  ⟨w.number, (Bytes.ofString (Command.line (.run task))).terminate, w.worker.child.process⟩

/-- A task that can be sent is put in front of the process. -/
theorem dispatch_resting (h : w.Resting how) (htask : task.Sendable) (s : Workshop) :
    Worker.dispatch task w s
      = (.done, w.busy task.kind, { s with errands := s.errands ++ [w.errand task] }) := by
  have hcommand := htask.ofTask
  obtain ⟨⟨index, state, ⟨number, process⟩, inputOpen, incoming, ended, decoder⟩⟩ := w
  cases how with
  | serving runner =>
      obtain ⟨⟨rfl, rfl, rfl, -, -⟩, rfl⟩ := h
      simp [Worker.dispatch, call, ProcessWorker.dispatch, hcommand, ProcessWorker.send,
        Child.takeLine, Handle.takeLine, ProcessWorker.react, Reaction.silence, busy,
        ProcessWorker.assigned, errand, Hand.number]
  | leaving code diagnostics =>
      obtain ⟨rfl, rfl, rfl, rfl, rfl, rfl⟩ := h
      simp [Worker.dispatch, call, ProcessWorker.dispatch, hcommand, ProcessWorker.send,
        Child.takeLine, Handle.takeLine, ProcessWorker.react, Reaction.silence, busy,
        ProcessWorker.assigned, errand, Hand.number]

theorem dispatch_unsendable (h : w.Resting how) (htask : ¬ task.Sendable) (s : Workshop) :
    ∃ e w' s', Worker.dispatch task w s = (.failed e, w', s') := by
  have hstate : w.worker.state = .idle := by
    cases how with
    | serving runner => exact h.2
    | leaving code diagnostics => rw [Resting.eq_def] at h; rw [h]; rfl
  obtain ⟨e, hdispatch⟩ := w.worker.dispatch_unsendable hstate htask s
  exact ⟨e, w, s, by rw [Worker.dispatch]; exact congrArg call hdispatch⟩

/-- The answer of a process that has taken its turn is heard when it is awaited. -/
theorem awaitResult_busy {result : Except TaskError Nat} (h : w.Resting (.serving runner))
    (hs : s.errands = [])
    (hanswer : s.answers w.number = some (LiveChild.answered runner kind result)) (bounded : Bool) :
    ∃ w', Worker.awaitResult bounded (w.busy kind) s
        = (TaskRunner.report w.worker.index kind result, w',
          { s with answers := Function.update s.answers w.number none })
      ∧ w'.Resting (.serving runner) ∧ w'.number = w.number := by
  obtain ⟨⟨index, state, ⟨number, process⟩, inputOpen, incoming, ended, decoder⟩⟩ := w
  obtain ⟨⟨rfl, rfl, rfl, hlull, hunread⟩, rfl⟩ := h
  dsimp only [Hand.number] at hanswer hlull hunread
  let spoken : ProcessWorker Handle :=
    ⟨index, .running kind, ⟨number, .serving runner⟩, true,
      incoming ++ [.chunk (LiveChild.statusLine (.ofResult kind result))], false, decoder⟩
  have hunread' : Unread lineLimit spoken.decoder spoken.incoming []
      [Bytes.ofString (Status.ofResult kind result).line] := by
    have hlater := (hunread.concat (Status.newline_notMem_line kind result)).deliver
      (LiveChild.statusLine (.ofResult kind result)).length
    simpa [LiveChild.statusLine, spoken] using hlater
  obtain ⟨decoder', incoming', hawait, hlull', hunread''⟩ :=
    spoken.awaitStatus_answer rfl (by simpa [spoken] using hlull) hunread' bounded
  refine ⟨⟨{ spoken with state := .idle, decoder := decoder', incoming := incoming' }⟩, ?_,
    ⟨⟨rfl, rfl, rfl, hlull', hunread''⟩, rfl⟩, rfl⟩
  simp only [Worker.awaitResult, awaitResult, Workshop.settle_of_nil hs, busy,
    ProcessWorker.assigned, Workshop.collect, hanswer, LiveChild.answered, Reaction.text,
    ProcessWorker.react, ProcessWorker.awaitResult, Bool.or_false]
  rw [hawait]
  rfl

/-- A process that leaves has no answer to a task. -/
theorem awaitResult_leaving {code : Nat} {diagnostics : String}
    (h : w.Resting (.leaving code diagnostics))
    (hs : ∀ i answer, s.settle.answers i = some answer → answer.2 = .silence) (bounded : Bool) :
    ∃ e w' s', Worker.awaitResult bounded (w.busy kind) s = (.failed e, w', s') := by
  have hcollect : ∃ handle s',
      s.settle.collect (w.busy kind).worker.child = (.silence, handle, s') := by
    unfold Workshop.collect
    cases hanswer : s.settle.answers (w.busy kind).worker.child.number with
    | none => exact ⟨_, _, rfl⟩
    | some answer =>
        obtain ⟨process, reaction⟩ := answer
        obtain rfl : reaction = .silence := hs _ _ hanswer
        exact ⟨_, _, rfl⟩
  obtain ⟨handle, s', hcollect⟩ := hcollect
  obtain ⟨⟨index, state, ⟨number, process⟩, inputOpen, incoming, ended, decoder⟩⟩ := w
  obtain ⟨rfl, rfl, rfl, rfl, rfl, rfl⟩ := h
  simp only [Worker.awaitResult, awaitResult, hcollect]
  simp only [busy, ProcessWorker.assigned, ProcessWorker.react, Reaction.silence,
    ProcessWorker.awaitResult]
  rw [ProcessWorker.awaitStatus_of_nothing rfl rfl rfl]
  exact ⟨_, _, _, rfl⟩

theorem takeEnd_done (number : Nat) (hs : s.Calm) :
    ∃ s', Handle.takeEnd ⟨number, .serving runner⟩
        { s with errands := [⟨number, (Bytes.ofString (Command.line .done)).terminate,
          .serving runner⟩] } = (⟨[], true⟩, ⟨number, .exited (.ofCode 0)⟩, s')
      ∧ s'.Calm ∧ s'.files = s.files := by
  refine ⟨{ s with errands := [], answers := Function.update (Function.update s.answers number
    (some (.exited (.ofCode 0), ⟨[], true⟩))) number none }, ?_, ⟨rfl, fun i => ?_⟩, rfl⟩
  · rw [Handle.takeEnd, Workshop.settle_singleton rfl]
    simp only [Workshop.takeTurn, LiveChild.takeLine, LiveWorker.serve_done, if_true,
      Workshop.collect, Except.toOption, Option.getD_some, Function.update_self,
      LiveChild.takeEnd]
    rfl
  · dsimp only
    by_cases hi : i = number
    · rw [hi, Function.update_self]
    · rw [Function.update_of_ne hi, Function.update_of_ne hi, hs.answers]

theorem terminate_resting (h : w.Resting (.serving runner)) (hs : s.Calm) :
    ∃ w' s', Worker.terminate w s = (.done, w', s') ∧ s'.Calm ∧ s'.files = s.files := by
  obtain ⟨⟨index, state, ⟨number, process⟩, inputOpen, incoming, ended, decoder⟩⟩ := w
  obtain ⟨⟨rfl, rfl, rfl, -, hunread⟩, rfl⟩ := h
  obtain ⟨s', hend, hcalm, hfiles⟩ := @takeEnd_done runner s number hs
  let left : ProcessWorker Handle :=
    ⟨index, .idle, ⟨number, .exited (.ofCode 0)⟩, false, incoming, true, decoder⟩
  have hdrain : left.drain
      = (.done, { left with incoming := [], decoder := .withLimit lineLimit }) :=
    ProcessWorker.drain_of_readable rfl hunread.readable
  refine ⟨⟨{ left with state := .terminated, incoming := [], decoder := .withLimit lineLimit }⟩, s',
    ?_, hcalm, hfiles⟩
  simp only [Worker.terminate, call, ProcessWorker.terminate, ProcessWorker.send, if_true,
    Child.takeLine, Handle.takeLine, ProcessWorker.react, Reaction.silence, List.append_nil,
    Bool.or_false, Child.takeEnd, hs.errands, List.nil_append, hend, Bool.or_true, hdrain, left]
  rfl

theorem stopChild_eq (handle : Handle) :
    ∃ status left, ProcessWorker.stopChild handle = (.ok (some status), left) := by
  unfold ProcessWorker.stopChild
  simp only [Child.poll, Child.stop]
  cases handle.process.exit? with
  | none => exact ⟨_, _, rfl⟩
  | some status => exact ⟨status, handle, rfl⟩

theorem kill_eq (w : Hand) (s : Workshop) : ∃ w', Worker.kill w s = (.done, w', s) := by
  obtain ⟨w', hkill⟩ := w.worker.kill_of_stopChild stopChild_eq s
  have hcalled : Worker.kill w s = call (w.worker.kill s) := rfl
  exact ⟨⟨w'⟩, by rw [hcalled, hkill, call]⟩

end Hand

end MapReduce
