import Mathlib.Data.List.Forall2
import MapReduce.Proofs.Session

/-!
# Coordinator and worker agree

A coordinator and a worker process are joined by two pipes, and the beat of the worker goes down the
same pipe as its answers. Commands are read, answers arrive and deadlines pass in any order, and the
output arrives in any pieces. Still the outcomes that the coordinator reads are those of the tasks it
handed over, in order: it hands over no task while an outcome is out, and of the lines on the way at
most one is an answer.
-/

namespace MapReduce

structure PipedChild where
  runner : TaskRunner
  /-- The command lines that it has not read, the oldest first. -/
  commands : List Bytes
  /-- What it has written and has not arrived. -/
  output : Bytes
  /-- The answer to the next write to its input, if that fails. -/
  refusal : Option IoError

namespace PipedChild

def takeLine (line : Bytes) (child : PipedChild) (t : FileTree) :
    Except IoError Reaction × PipedChild × FileTree :=
  match child.refusal with
  | some e => (.error e, child, t)
  | none => (.ok .silence, { child with commands := child.commands ++ [line] }, t)

instance : Child PipedChild FileTree where
  takeLine := takeLine
  takeEnd child t := (.silence, child, t)
  poll child := (.ok none, child)
  wait child := (.ok none, child)
  stop child := (.ok (some (.ofSignal 9)), child)

def write (child : PipedChild) (out : Sink) : PipedChild :=
  { child with output := child.output ++ out.contents }

end PipedChild

structure TaskTrace where
  found : FileTree
  left : FileTree

/-- A coordinator's end and a worker's end, with a record of what went through. -/
structure Link where
  worker : ProcessWorker PipedChild
  tree : FileTree
  dispatched : List Task
  carried : List TaskTrace
  reports : List Reply

inductive LinkEvent where
  /-- The coordinator hands a task over; the write may fail. -/
  | dispatch (task : Task) (refusal : Option IoError)
  /-- The coordinator waits for a result, with or without a deadline. -/
  | await (bounded : Bool)
  /-- The worker carries out the next command line, if there is one. -/
  | work
  | beat
  /-- So many bytes of the output arrive. -/
  | deliver (n : Nat)
  | lull
  /-- Somebody else changes the files. -/
  | change (t : FileTree)

namespace Link

def fresh (index : Nat) (runner : TaskRunner) (t : FileTree) : Link :=
  ⟨.ofChild index ⟨runner, [], [], none⟩ .silence, t, [], [], []⟩

def work (link : Link) : Link :=
  let child := link.worker.child
  match child.commands with
  | [] => link
  | line :: commands =>
    let (_, out, t) := child.runner.serve line .unbounded link.tree
    { link with
      worker := { link.worker with child := { child with commands }.write out }
      tree := t
      carried := link.carried ++ [⟨link.tree, t⟩] }

def deliver (n : Nat) (link : Link) : Link :=
  let child := link.worker.child
  { link with
    worker := { link.worker with
      child := { child with output := child.output.drop n }
      incoming := link.worker.incoming ++ [.chunk (child.output.take n)] } }

def step (link : Link) : LinkEvent → Link
  | .dispatch task refusal =>
    let worker := { link.worker with child := { link.worker.child with refusal } }
    let (reply, worker, tree) := Worker.dispatch task worker link.tree
    { link with
      worker, tree, dispatched := link.dispatched ++ if reply = .done then [task] else [] }
  | .await bounded =>
    let (reply, worker, tree) := Worker.awaitResult bounded link.worker link.tree
    { link with worker, tree, reports := link.reports ++ if reply.isReport then [reply] else [] }
  | .work => link.work
  | .beat =>
    { link with worker := { link.worker with
        child := link.worker.child.write (Heartbeat.beats .unbounded 1).2 } }
  | .deliver n => link.deliver n
  | .lull => { link with worker := { link.worker with incoming := link.worker.incoming ++ [.lull] } }
  | .change tree => { link with tree }

def run (link : Link) (events : List LinkEvent) : Link :=
  events.foldl step link

end Link

/-! ### What is on the way -/

namespace Link

open ProcessWorker (Unread IsRemark Answered lineLimit reading replyOf)
open TaskRunner (isReport_report replyOf_reading not_isRemark_answer)

def commandLine (task : Task) : Bytes :=
  (Bytes.ofString (Command.line (.run task))).terminate

def IsBeat (line : Bytes) : Prop :=
  line = Bytes.ofString Heartbeat.line

theorem IsBeat.isRemark {line : Bytes} (h : IsBeat line) : IsRemark lineLimit line := by
  refine ⟨Heartbeat.line, ?_⟩
  rw [h, reading, List.take_of_length_le (by decide), Status.parse_heartbeat]

variable {runner : TaskRunner} {index : Nat}

/-- Tasks and what was left of carrying them out. -/
def Carried (runner : TaskRunner) : List Task → List TaskTrace → Prop :=
  List.Forall₂ fun task trace => trace.left = (runner.run task trace.found).2

def outcomes (runner : TaskRunner) (index : Nat) (tasks : List Task) (traces : List TaskTrace) :
    List Reply :=
  List.zipWith (fun task trace => runner.outcome index task trace.found) tasks traces

/-- How far the last task has come, with the command lines and the output lines on the way. -/
inductive Stage (runner : TaskRunner) (index : Nat) :
    WorkerState → List Bytes → List Bytes → List Task → List TaskTrace → List Reply → Prop where
  /-- Every outcome has been read. -/
  | rest {lines : List Bytes} {tasks : List Task} {traces : List TaskTrace}
      (hbeats : ∀ l ∈ lines, IsBeat l) (hcarried : Carried runner tasks traces) :
      Stage runner index .idle [] lines tasks traces (outcomes runner index tasks traces)
  /-- The last command has not been read. -/
  | sent {lines : List Bytes} {tasks : List Task} {traces : List TaskTrace} {task : Task}
      (hbeats : ∀ l ∈ lines, IsBeat l) (hcarried : Carried runner tasks traces)
      (hinput : Command.isSendable task.input = true)
      (houtput : Command.isSendable task.output = true) :
      Stage runner index (.running task.kind) [commandLine task] lines (tasks ++ [task]) traces
        (outcomes runner index tasks traces)
  /-- The last answer has not been read. -/
  | answered {before after : List Bytes} {tasks : List Task} {traces : List TaskTrace} {task : Task}
      {trace : TaskTrace} (hbefore : ∀ l ∈ before, IsBeat l) (hafter : ∀ l ∈ after, IsBeat l)
      (hcarried : Carried runner tasks traces)
      (htrace : trace.left = (runner.run task trace.found).2) :
      Stage runner index (.running task.kind) [] (before ++ runner.answerLine task trace.found :: after)
        (tasks ++ [task]) (traces ++ [trace]) (outcomes runner index tasks traces)

/-- The record agrees with what is on the way. -/
structure Sound (runner : TaskRunner) (index : Nat) (link : Link) : Prop where
  runner_eq : link.worker.child.runner = runner
  index_eq : link.worker.index = index
  inputOpen : link.worker.inputOpen = true
  ended : link.worker.ended = false
  stage : ∃ lines,
    Unread lineLimit link.worker.decoder link.worker.incoming link.worker.child.output lines
      ∧ Stage runner index link.worker.state link.worker.child.commands lines link.dispatched
        link.carried link.reports

theorem fresh_sound (index : Nat) (runner : TaskRunner) (t : FileTree) :
    (fresh index runner t).Sound runner index where
  runner_eq := rfl
  index_eq := rfl
  inputOpen := rfl
  ended := rfl
  stage := by
    refine ⟨[], ⟨rfl, by simp [fresh, ProcessWorker.ofChild, Reaction.silence], ?_⟩, ?_⟩
    · exact ⟨by simp, fun _ => rfl, by simp [fresh, ProcessWorker.ofChild, LineDecoder.withLimit]⟩
    · have hbeats : ∀ l ∈ ([] : List Bytes), IsBeat l := by simp
      exact .rest hbeats .nil

/-! ### One event -/

variable {link : Link}

theorem dispatch_sound (h : link.Sound runner index) (task : Task) (refusal : Option IoError) :
    (link.step (.dispatch task refusal)).Sound runner index := by
  obtain ⟨⟨index', state, ⟨runner', commands, output, refusal'⟩, inputOpen, incoming, ended, decoder⟩,
    tree, dispatched, carried, reports⟩ := link
  obtain ⟨rfl, rfl, rfl, rfl, lines, hunread, hstage⟩ := h
  dsimp only at hunread hstage
  simp only [step, Worker.dispatch, ProcessWorker.dispatch]
  by_cases hidle : state = .idle
  · subst hidle
    cases htask : Command.ofTask task with
    | error e =>
        simp only [ne_eq, not_true_eq_false, if_false, reduceCtorEq, List.append_nil]
        exact ⟨rfl, rfl, rfl, rfl, lines, hunread, hstage⟩
    | ok command =>
        obtain ⟨hinput, houtput, rfl⟩ := Command.ofTask_eq_ok_iff.mp htask
        cases refusal with
        | some e =>
            simp only [ne_eq, not_true_eq_false, if_false, ProcessWorker.send, if_true,
              Child.takeLine, PipedChild.takeLine, reduceCtorEq, List.append_nil]
            exact ⟨rfl, rfl, rfl, rfl, lines, hunread, hstage⟩
        | none =>
            cases hstage with
            | rest hbeats hcarried =>
                simp only [ne_eq, not_true_eq_false, if_false, ProcessWorker.send, if_true,
                  Child.takeLine, PipedChild.takeLine, ProcessWorker.react, Reaction.silence,
                  List.append_nil, List.nil_append]
                exact ⟨rfl, rfl, rfl, rfl, lines, hunread, .sent hbeats hcarried hinput houtput⟩
  · simp only [ne_eq, hidle, not_false_eq_true, if_true, ProcessWorker.refuse, reduceCtorEq, if_false,
      List.append_nil]
    exact ⟨rfl, rfl, rfl, rfl, lines, hunread, hstage⟩

theorem work_sound (h : link.Sound runner index) : (link.step .work).Sound runner index := by
  obtain ⟨⟨index', state, ⟨runner', commands, output, refusal⟩, inputOpen, incoming, ended, decoder⟩,
    tree, dispatched, carried, reports⟩ := link
  obtain ⟨rfl, rfl, rfl, rfl, lines, hunread, hstage⟩ := h
  dsimp only at hunread hstage
  cases hstage with
  | rest hbeats hcarried => exact ⟨rfl, rfl, rfl, rfl, lines, hunread, .rest hbeats hcarried⟩
  | answered hbefore hafter hcarried htrace =>
      exact ⟨rfl, rfl, rfl, rfl, _, hunread, .answered hbefore hafter hcarried htrace⟩
  | @sent _ tasks _ task hbeats hcarried hinput houtput =>
      simp only [step, work, commandLine, runner'.serve_line hinput houtput, PipedChild.write,
        TaskRunner.contents_heard]
      have htrace : (runner'.run task tree).2 = (runner'.run task tree).2 := rfl
      exact ⟨rfl, rfl, rfl, rfl, _, hunread.concat (Status.newline_notMem_line _ _),
        @Stage.answered runner' index' lines [] tasks carried task ⟨tree, _⟩ hbeats (by simp)
          hcarried htrace⟩

theorem contents_beats_one :
    (Heartbeat.beats .unbounded 1).2.contents = (Bytes.ofString Heartbeat.line).terminate := by
  simp [Heartbeat.beats, Sink.writeLine, Sink.write, Sink.unbounded, Sink.flush, Sink.contents]

theorem newline_notMem_beat : Bytes.newline ∉ Bytes.ofString Heartbeat.line := by
  decide

theorem Stage.beat {state : WorkerState} {commands lines : List Bytes} {tasks : List Task}
    {traces : List TaskTrace} {reports : List Reply} {l : Bytes} (hl : IsBeat l)
    (h : Stage runner index state commands lines tasks traces reports) :
    Stage runner index state commands (lines ++ [l]) tasks traces reports := by
  have hbeats : ∀ {ls : List Bytes}, (∀ l ∈ ls, IsBeat l) → ∀ l' ∈ ls ++ [l], IsBeat l' := by
    intro ls hls l' hl'
    rcases List.mem_append.mp hl' with hl' | hl'
    · exact hls l' hl'
    · rwa [List.mem_singleton.mp hl']
  cases h with
  | rest hlines hcarried => exact .rest (hbeats hlines) hcarried
  | sent hlines hcarried hinput houtput => exact .sent (hbeats hlines) hcarried hinput houtput
  | answered hbefore hafter hcarried htrace =>
      rw [List.append_assoc, List.cons_append]
      exact .answered hbefore (hbeats hafter) hcarried htrace

theorem beat_sound (h : link.Sound runner index) : (link.step .beat).Sound runner index := by
  obtain ⟨hrunner, hindex, hopen, hended, lines, hunread, hstage⟩ := h
  refine ⟨hrunner, hindex, hopen, hended, lines ++ [Bytes.ofString Heartbeat.line], ?_,
    hstage.beat rfl⟩
  simp only [step, PipedChild.write, contents_beats_one]
  exact hunread.concat newline_notMem_beat

theorem deliver_sound (h : link.Sound runner index) (n : Nat) :
    (link.step (.deliver n)).Sound runner index := by
  obtain ⟨hrunner, hindex, hopen, hended, lines, hunread, hstage⟩ := h
  exact ⟨hrunner, hindex, hopen, hended, lines, hunread.deliver n, hstage⟩

theorem lull_sound (h : link.Sound runner index) : (link.step .lull).Sound runner index := by
  obtain ⟨hrunner, hindex, hopen, hended, lines, hunread, hstage⟩ := h
  exact ⟨hrunner, hindex, hopen, hended, lines, hunread.lull, hstage⟩

theorem change_sound (h : link.Sound runner index) (t : FileTree) :
    (link.step (.change t)).Sound runner index := by
  obtain ⟨hrunner, hindex, hopen, hended, lines, hunread, hstage⟩ := h
  exact ⟨hrunner, hindex, hopen, hended, lines, hunread, hstage⟩

def waited (link : Link) (result : Reply × ProcessWorker PipedChild) : Link :=
  { link with
    worker := result.2
    reports := link.reports ++ if result.1.isReport then [result.1] else [] }

theorem step_await_of_idle (h : link.worker.state = .idle) (bounded : Bool) :
    link.step (.await bounded) = link := by
  simp [step, Worker.awaitResult, ProcessWorker.awaitResult, h, ProcessWorker.refuse, Reply.isReport]

theorem step_await_of_running {kind : TaskKind} (h : link.worker.state = .running kind)
    (bounded : Bool) :
    link.step (.await bounded) = link.waited (link.worker.awaitStatus bounded) := by
  simp only [step, Worker.awaitResult, ProcessWorker.awaitResult, h]
  rfl

theorem outcomes_concat {tasks : List Task} {traces : List TaskTrace}
    (hcarried : Carried runner tasks traces) (task : Task) (trace : TaskTrace) :
    outcomes runner index (tasks ++ [task]) (traces ++ [trace])
      = outcomes runner index tasks traces ++ [runner.outcome index task trace.found] := by
  rw [outcomes, List.zipWith_append hcarried.length_eq]
  rfl

theorem waited_sound (h : link.Sound runner index) {kind : TaskKind}
    (hrunning : link.worker.state = .running kind) {patient : Prop} {lines : List Bytes}
    {result : Reply × ProcessWorker PipedChild}
    (hstage : Stage runner index link.worker.state link.worker.child.commands lines link.dispatched
      link.carried link.reports)
    (hanswered : Answered lineLimit patient link.worker link.worker.child.output lines result) :
    (link.waited result).Sound runner index := by
  obtain ⟨⟨index', state, ⟨runner', commands, output, refusal⟩, inputOpen, incoming, ended, decoder⟩,
    tree, dispatched, carried, reports⟩ := link
  obtain ⟨rfl, rfl, rfl, rfl, -⟩ := h
  dsimp only at hstage hanswered hrunning
  have hquiet : ∀ {remarks ls : List Bytes}, (∀ l ∈ remarks ++ ls, IsBeat l) → ∀ l ∈ ls, IsBeat l :=
    fun h l hl => h l (List.mem_append_right _ hl)
  cases hstage with
  | rest hbeats hcarried => cases hrunning
  | sent hbeats hcarried hinput houtput =>
      cases hanswered with
      | answer hlines hremarks hanswer hsuffix hunread =>
          exact absurd (hbeats _ (by simp [hlines])).isRemark hanswer
      | @never _ _ _ ls hlines hremarks hunread hnone =>
          simp only [waited, ProcessWorker.reader, Reply.isReport, Bool.false_eq_true, if_false,
            List.append_nil]
          exact ⟨rfl, rfl, rfl, rfl, ls, hunread,
            .sent (hquiet (hlines ▸ hbeats)) hcarried hinput houtput⟩
  | @answered before after tasks traces task trace hbefore hafter hcarried htrace =>
      have hisRemark : ∀ l ∈ before, IsRemark lineLimit l := fun l hl => (hbefore l hl).isRemark
      have hnot : ¬ IsRemark lineLimit (runner'.answerLine task trace.found) := not_isRemark_answer _ _
      cases hanswered with
      | answer hlines hremarks hanswer hsuffix hunread =>
          obtain ⟨rfl, rfl, rfl⟩ := cut_unique_of hisRemark hnot hremarks hanswer hlines
          have hreply : replyOf index' (reading lineLimit (runner'.answerLine task trace.found))
              = runner'.outcome index' task trace.found := replyOf_reading _ _ _
          have hreport : (runner'.outcome index' task trace.found).isReport = true := isReport_report _ _ _
          simp only [waited, ProcessWorker.reader, hreply, hreport, if_true,
            ← outcomes_concat hcarried]
          exact ⟨rfl, rfl, rfl, rfl, after, hunread,
            .rest hafter (List.rel_append hcarried (.cons htrace .nil))⟩
      | @never _ _ _ ls hlines hremarks hunread hnone =>
          obtain ⟨more, rfl, rfl⟩ := exists_append_of_forall hremarks hnot hlines.symm
          simp only [waited, ProcessWorker.reader, Reply.isReport, Bool.false_eq_true, if_false,
            List.append_nil]
          exact ⟨rfl, rfl, rfl, rfl, _, hunread, .answered (hquiet hbefore) hafter hcarried htrace⟩

theorem await_sound (h : link.Sound runner index) (bounded : Bool) :
    (link.step (.await bounded)).Sound runner index := by
  obtain ⟨lines, hunread, hstage⟩ := h.stage
  cases hstate : link.worker.state with
  | idle =>
      rw [step_await_of_idle hstate]
      exact h
  | terminated =>
      rw [hstate] at hstage
      cases hstage
  | running kind =>
      rw [step_await_of_running hstate]
      exact waited_sound h hstate hstage (ProcessWorker.awaitStatus_answered h.ended Or.inl hunread)

/-! ### Whole runs -/

theorem step_sound (h : link.Sound runner index) (event : LinkEvent) :
    (link.step event).Sound runner index := by
  cases event with
  | dispatch task refusal => exact dispatch_sound h task refusal
  | await bounded => exact await_sound h bounded
  | work => exact work_sound h
  | beat => exact beat_sound h
  | deliver n => exact deliver_sound h n
  | lull => exact lull_sound h
  | change t => exact change_sound h t

theorem run_sound (h : link.Sound runner index) (events : List LinkEvent) :
    (link.run events).Sound runner index := by
  induction events generalizing link with
  | nil => exact h
  | cons event events ih => exact ih (step_sound h event)

theorem length_outcomes {tasks : List Task} {traces : List TaskTrace}
    (hcarried : Carried runner tasks traces) :
    (outcomes runner index tasks traces).length = traces.length := by
  simp [outcomes, hcarried.length_eq]

/-- An answer on the way is read by the first wait without a deadline once all has arrived. -/
theorem length_reports_waited {lines : List Bytes} {result : Reply × ProcessWorker PipedChild}
    (hstage : Stage runner index link.worker.state link.worker.child.commands lines link.dispatched
      link.carried link.reports) (hless : link.reports.length < link.carried.length)
    {patient : Prop} (hpatient : patient)
    (hanswered : Answered lineLimit patient link.worker [] lines result)
    (hindex : link.worker.index = index) :
    (link.waited result).reports.length = link.reports.length + 1 := by
  obtain ⟨⟨index', state, ⟨runner', commands, output, refusal⟩, inputOpen, incoming, ended, decoder⟩,
    tree, dispatched, carried, reports⟩ := link
  dsimp only at hstage hanswered hindex hless
  subst hindex
  cases hstage with
  | rest hbeats hcarried => exact absurd hless (by rw [length_outcomes hcarried]; omega)
  | sent hbeats hcarried hinput houtput =>
      exact absurd hless (by rw [length_outcomes hcarried]; omega)
  | @answered before after tasks traces task trace hbefore hafter hcarried htrace =>
      have hisRemark : ∀ l ∈ before, IsRemark lineLimit l := fun l hl => (hbefore l hl).isRemark
      have hnot : ¬ IsRemark lineLimit (runner.answerLine task trace.found) := not_isRemark_answer _ _
      cases hanswered with
      | answer hlines hremarks hanswer hsuffix hunread =>
          obtain ⟨-, rfl, -⟩ := cut_unique_of hisRemark hnot hremarks hanswer hlines
          have hreply : replyOf index' (reading lineLimit (runner.answerLine task trace.found))
              = runner.outcome index' task trace.found := replyOf_reading _ _ _
          have hreport : (runner.outcome index' task trace.found).isReport = true :=
            isReport_report _ _ _
          simp [waited, hreply, hreport]
      | never hlines hremarks hunread hnone =>
          obtain ⟨more, -, rfl⟩ := exists_append_of_forall hremarks hnot hlines.symm
          exact absurd (hnone hpatient rfl) (by simp)

/-- What the record of a link says about its two ends. -/
structure InStep (runner : TaskRunner) (index : Nat) (link : Link) : Prop where
  /-- The outcomes read are those of the tasks handed over, in order. -/
  reported : ∀ (k : Nat) (reply : Reply), link.reports[k]? = some reply → ∃ task trace,
    link.dispatched[k]? = some task ∧ link.carried[k]? = some trace
      ∧ reply = runner.outcome index task trace.found
  /-- The tasks carried out are those handed over, in order. -/
  carried : ∀ (k : Nat) (trace : TaskTrace), link.carried[k]? = some trace → ∃ task,
    link.dispatched[k]? = some task ∧ trace.left = (runner.run task trace.found).2
  reports_le : link.reports.length ≤ link.carried.length
  carried_le : link.carried.length ≤ link.dispatched.length
  /-- At most one task is out, so at most one answer is unread. -/
  dispatched_le : link.dispatched.length ≤ link.reports.length + 1
  /-- An answer that is unread will be read. -/
  unread : link.reports.length < link.carried.length →
    (link.run [.deliver link.worker.child.output.length, .await false]).reports.length
      = link.reports.length + 1

theorem getElem?_outcomes {tasks : List Task} {traces : List TaskTrace} {k : Nat} {reply : Reply}
    (h : (outcomes runner index tasks traces)[k]? = some reply) :
    ∃ task trace, tasks[k]? = some task ∧ traces[k]? = some trace
      ∧ reply = runner.outcome index task trace.found := by
  rw [outcomes, List.getElem?_zipWith_eq_some] at h
  obtain ⟨task, trace, htask, htrace, hreply⟩ := h
  exact ⟨task, trace, htask, htrace, hreply.symm⟩

section Stages

variable {state : WorkerState} {commands lines : List Bytes} {tasks : List Task}
  {traces : List TaskTrace} {reports : List Reply}

theorem Stage.lengths (h : Stage runner index state commands lines tasks traces reports) :
    reports.length ≤ traces.length ∧ traces.length ≤ tasks.length
      ∧ tasks.length ≤ reports.length + 1 := by
  cases h with
  | rest hbeats hcarried =>
      have := hcarried.length_eq
      rw [length_outcomes hcarried]
      omega
  | sent hbeats hcarried hinput houtput =>
      have := hcarried.length_eq
      rw [length_outcomes hcarried, List.length_append, List.length_singleton]
      omega
  | answered hbefore hafter hcarried htrace =>
      have := hcarried.length_eq
      simp only [length_outcomes hcarried, List.length_append, List.length_singleton]
      omega

theorem Stage.running (h : Stage runner index state commands lines tasks traces reports)
    (hless : reports.length < traces.length) : ∃ kind, state = .running kind := by
  cases h with
  | rest hbeats hcarried => exact absurd hless (by rw [length_outcomes hcarried]; omega)
  | sent => exact ⟨_, rfl⟩
  | answered => exact ⟨_, rfl⟩

theorem Stage.outcomes_eq (h : Stage runner index state commands lines tasks traces reports) :
    ∃ unread, outcomes runner index tasks traces = reports ++ unread := by
  cases h with
  | rest hbeats hcarried => exact ⟨[], by simp⟩
  | @sent _ tasks _ task hbeats hcarried hinput houtput =>
      refine ⟨[], ?_⟩
      rw [outcomes, ← List.append_nil traces, List.zipWith_append hcarried.length_eq]
      simp [outcomes]
  | answered hbefore hafter hcarried htrace => exact ⟨_, outcomes_concat hcarried _ _⟩

theorem Stage.carried (h : Stage runner index state commands lines tasks traces reports) :
    ∃ done unread, tasks = done ++ unread ∧ Carried runner done traces := by
  cases h with
  | rest hbeats hcarried => exact ⟨tasks, [], by simp, hcarried⟩
  | sent hbeats hcarried hinput houtput => exact ⟨_, _, rfl, hcarried⟩
  | answered hbefore hafter hcarried htrace =>
      exact ⟨_, [], (List.append_nil _).symm, List.rel_append hcarried (.cons htrace .nil)⟩

end Stages

theorem Sound.inStep (h : link.Sound runner index) : link.InStep runner index := by
  obtain ⟨lines, hunread, hstage⟩ := h.stage
  obtain ⟨hreports, hcarried, hdispatched⟩ := hstage.lengths
  refine ⟨?_, ?_, hreports, hcarried, hdispatched,
    ?_⟩
  · intro k reply hreply
    obtain ⟨unread, houtcomes⟩ := hstage.outcomes_eq
    apply getElem?_outcomes
    rw [houtcomes, List.getElem?_append_left (List.getElem?_eq_some_iff.mp hreply).1, hreply]
  · intro k trace htrace
    obtain ⟨done, unread, hdone, htraces⟩ := hstage.carried
    obtain ⟨hk, rfl⟩ := List.getElem?_eq_some_iff.mp htrace
    have hk' : k < done.length := htraces.length_eq ▸ hk
    refine ⟨done[k], ?_, (List.forall₂_iff_get.mp htraces).2 k hk' hk⟩
    rw [hdone, List.getElem?_append_left hk', List.getElem?_eq_getElem hk']
  · intro hless
    obtain ⟨kind, hrunning⟩ := hstage.running hless
    have hall := hunread.deliver link.worker.child.output.length
    rw [List.drop_length] at hall
    let arrived := link.deliver link.worker.child.output.length
    have hbusy : arrived.worker.state = .running kind := hrunning
    have hstage' : Stage runner index arrived.worker.state arrived.worker.child.commands lines
      arrived.dispatched arrived.carried arrived.reports := hstage
    have hanswered : Answered lineLimit (false = false) arrived.worker [] lines
        (arrived.worker.awaitStatus false) := ProcessWorker.awaitStatus_answered h.ended Or.inl hall
    have harrived : (arrived.waited (arrived.worker.awaitStatus false)).reports.length
        = arrived.reports.length + 1 :=
      length_reports_waited hstage' hless rfl hanswered h.index_eq
    rw [← step_await_of_running hbusy] at harrived
    exact harrived

/-- **Agreement.** However commands, answers and beats, arrivals, deadlines and changes of the files
follow each other, a coordinator and its worker stay in step. -/
theorem run_inStep (index : Nat) (runner : TaskRunner) (t : FileTree) (events : List LinkEvent) :
    ((fresh index runner t).run events).InStep runner index :=
  (run_sound (fresh_sound index runner t) events).inStep

end Link

end MapReduce
