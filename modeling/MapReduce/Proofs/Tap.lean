import MapReduce.Proofs.LiveWorker

/-!
# A tap on the input of a child

What a worker process writes to its child can only be seen on the way. A tapped child does what the
child inside it does and puts down every line that is written to it, in order with the calls that the
worker gets. The tap changes nothing: a worker with a tapped child goes on as it would without.
-/

namespace MapReduce

/-- A call that is made to a worker process. -/
inductive ProcessCall where
  | dispatch (task : Task)
  | await (bounded : Bool)
  | terminate
  | kill

inductive WireEvent where
  /-- A line was written to the child's input, which took it or refused it. -/
  | line (line : Bytes) (taken : Bool)
  /-- A call ended with this reply and left the worker in this state. -/
  | ended (call : ProcessCall) (reply : Reply) (state : WorkerState)

/-- The line of a command on the wire. -/
def Command.wire (command : Command) : Bytes :=
  (Bytes.ofString command.line).terminate

/-- A child whose input is watched. -/
structure Tapped (χ : Type) where
  child : χ

variable {χ σ : Type}

namespace Tapped

variable [Child χ σ]

instance : Child (Tapped χ) (σ × List WireEvent) where
  takeLine line c s :=
    let taken := Child.takeLine line c.child s.1
    (taken.1, ⟨taken.2.1⟩, (taken.2.2, s.2 ++ [.line line taken.1.isOk]))
  takeEnd c s :=
    let taken := Child.takeEnd c.child s.1
    (taken.1, ⟨taken.2.1⟩, (taken.2.2, s.2))
  poll c :=
    let polled := Child.poll c.child
    (polled.1, ⟨polled.2⟩)
  wait c :=
    let waited := Child.wait c.child
    (waited.1, ⟨waited.2⟩)
  stop c :=
    let stopped := Child.stop c.child
    (stopped.1, ⟨stopped.2⟩)

theorem takeLine_eq (line : Bytes) (child : χ) (s : σ) (log : List WireEvent) :
    Child.takeLine line (Tapped.mk child) (s, log) = ((Child.takeLine line child s).1,
      ⟨(Child.takeLine line child s).2.1⟩, ((Child.takeLine line child s).2.2,
        log ++ [.line line (Child.takeLine line child s).1.isOk])) := rfl

theorem takeEnd_eq (child : χ) (s : σ) (log : List WireEvent) :
    Child.takeEnd (Tapped.mk child) (s, log) = ((Child.takeEnd child s).1,
      ⟨(Child.takeEnd child s).2.1⟩, ((Child.takeEnd child s).2.2, log)) := rfl

end Tapped

namespace ProcessWorker

def withChild {χ' : Type} (w : ProcessWorker χ) (child : χ') : ProcessWorker χ' :=
  { w with child }

def tapped (w : ProcessWorker χ) : ProcessWorker (Tapped χ) :=
  w.withChild ⟨w.child⟩

def untapped (w : ProcessWorker (Tapped χ)) : ProcessWorker χ :=
  w.withChild w.child.child

end ProcessWorker

def ProcessCall.perform [Child χ σ] :
    ProcessCall → ProcessWorker χ → σ → Reply × ProcessWorker χ × σ
  | .dispatch task, w, s => w.dispatch task s
  | .await bounded, w, s => w.awaitResult bounded s
  | .terminate, w, s => w.terminate s
  | .kill, w, s => w.kill s

namespace ProcessWorker

/-! ### Waiting does not look at the child -/

theorem awaitStatus_eq (bounded : Bool) (w : ProcessWorker χ) :
    w.awaitStatus bounded = match receive bounded w.ended w.decoder w.incoming with
      | (.line line, decoder, incoming) =>
        match Status.parse line.bytes.show with
        | .ok => (.done, { w with state := .idle, decoder, incoming })
        | .error message =>
          (.failed (.reported w.index message), { w with state := .idle, decoder, incoming })
        | .diagnostic _ => awaitStatus bounded { w with decoder, incoming }
      | (.ended, decoder, incoming) =>
        (.failed (.unexpectedExit w.index), { w with decoder, incoming })
      | (.failed e, decoder, incoming) => (.failed (.io w.index e), { w with decoder, incoming })
      | (.nothing, decoder, incoming) => (.never, { w with decoder, incoming }) := by
  rw [awaitStatus]
  split
  · next line decoder incoming h =>
      cases hstatus : Status.parse line.bytes.show <;> simp only [h, hstatus]
  · next h => simp only [h]
  · next h => simp only [h]
  · next h => simp only [h]

end ProcessWorker

/-- The wait ended without a result: the child closed its output, reading failed, or the caller gave
up. -/
def Reply.isCutShort : Reply → Bool
  | .never | .failed (.unexpectedExit _) | .failed (.io ..) => true
  | _ => false

namespace ProcessWorker

/-- A result leaves a worker idle, and a wait without one leaves it as it was. -/
inductive WaitEnded (state : WorkerState) : Reply → WorkerState → Prop where
  | result {reply : Reply} (hreport : reply.isReport = true) : WaitEnded state reply .idle
  | cutShort {reply : Reply} (hcut : reply.isCutShort = true) : WaitEnded state reply state

/-- How a wait ends does not depend on the child that the output came from. -/
theorem awaitStatus_withChild (bounded : Bool) (w : ProcessWorker χ) :
    ∃ reply state decoder incoming, WaitEnded w.state reply state
      ∧ ∀ (χ' : Type) (child : χ'), (w.withChild child).awaitStatus bounded
          = (reply, { w.withChild child with state, decoder, incoming }) := by
  induction hn : unreadOf w.decoder w.incoming using Nat.strongRecOn generalizing w with
  | _ n ih =>
      have hsame : ∀ (χ' : Type) (child : χ'), receive bounded (w.withChild child).ended
          (w.withChild child).decoder (w.withChild child).incoming
            = receive bounded w.ended w.decoder w.incoming := fun _ _ => rfl
      rcases hreceive : receive bounded w.ended w.decoder w.incoming
        with ⟨line | _ | e | _, decoder, incoming⟩
      · cases hstatus : Status.parse line.bytes.show with
        | ok =>
            refine ⟨.done, .idle, decoder, incoming, .result rfl, fun _ child => ?_⟩
            rw [awaitStatus_eq, hsame, hreceive]
            dsimp only
            rw [hstatus]
        | error message =>
            refine ⟨.failed (.reported w.index message), .idle, decoder, incoming, .result rfl,
              fun _ child => ?_⟩
            rw [awaitStatus_eq, hsame, hreceive]
            dsimp only
            rw [hstatus]
            rfl
        | diagnostic text =>
            have hless := unreadOf_lt_of_receive hreceive
            obtain ⟨reply, state, decoder', incoming', hended, hrest⟩ :=
              ih _ (hn ▸ hless) { w with decoder, incoming } rfl
            refine ⟨reply, state, decoder', incoming', hended, fun χ' child => ?_⟩
            rw [awaitStatus_eq, hsame, hreceive]
            dsimp only
            rw [hstatus]
            exact hrest χ' child
      · refine ⟨.failed (.unexpectedExit w.index), w.state, decoder, incoming, .cutShort rfl,
          fun _ child => ?_⟩
        rw [awaitStatus_eq, hsame, hreceive]
        rfl
      · refine ⟨.failed (.io w.index e), w.state, decoder, incoming, .cutShort rfl,
          fun _ child => ?_⟩
        rw [awaitStatus_eq, hsame, hreceive]
        rfl
      · refine ⟨.never, w.state, decoder, incoming, .cutShort rfl, fun _ child => ?_⟩
        rw [awaitStatus_eq, hsame, hreceive]
        rfl

section

variable [Child χ σ] {w : ProcessWorker χ} {s s' : σ} {command : Command} {child : χ}

/-! ### Writing a line -/

theorem send_of_closed (h : w.inputOpen = false) :
    w.send command s = (w.refuse "receive commands", w, s) := by
  simp [send, h]

theorem send_of_error (hopen : w.inputOpen = true) {e : IoError}
    (h : Child.takeLine command.wire w.child s = (.error e, child, s')) :
    w.send command s = (.failed (.send w.index command.line e), { w with child }, s') := by
  rw [Command.wire] at h
  rw [send, if_pos hopen, h]

theorem send_of_ok (hopen : w.inputOpen = true) {reaction : Reaction}
    (h : Child.takeLine command.wire w.child s = (.ok reaction, child, s')) :
    w.send command s = (.done, w.react child reaction, s') := by
  rw [Command.wire] at h
  rw [send, if_pos hopen, h]

/-! ### Taking leave -/

def inputClosed (w : ProcessWorker χ) : ProcessWorker χ :=
  { w with inputOpen := false }

/-- Closes the child's input and waits for it to go, once `done` has been said. -/
def leave (w : ProcessWorker χ) (s : σ) : Reply × ProcessWorker χ × σ :=
  let (reaction, child, s) := Child.takeEnd w.child s
  match (w.inputClosed.react child reaction).drain with
  | (.done, w) => (w.waitExit.1, w.waitExit.2, s)
  | (reply, w) => (reply, w, s)

theorem terminate_of_ok (hidle : w.state = .idle) (hopen : w.inputOpen = true) {reaction : Reaction}
    (h : Child.takeLine (Command.wire .done) w.child s = (.ok reaction, child, s')) :
    w.terminate s = (w.react child reaction).leave s' := by
  rw [terminate, hidle]
  dsimp only
  rw [send_of_ok hopen h]
  rfl

theorem drain_tapped (w : ProcessWorker χ) : w.tapped.drain = (w.drain.1, w.drain.2.tapped) := by
  unfold drain tapped withChild
  dsimp only
  split
  · rfl
  · rfl

theorem waitExit_tapped (w : ProcessWorker χ) :
    w.tapped.waitExit = (w.waitExit.1, w.waitExit.2.tapped) := by
  have hwait : Child.wait w.tapped.child
      = ((Child.wait w.child).1, Tapped.mk (Child.wait w.child).2) := rfl
  rw [waitExit, waitExit, hwait]
  rcases Child.wait w.child with ⟨e | _ | status, child⟩
  · rfl
  · rfl
  · rfl

theorem stopChild_tapped (child : χ) :
    stopChild (Tapped.mk child) = ((stopChild child).1, Tapped.mk (stopChild child).2) := by
  have hpoll : Child.poll (Tapped.mk child)
      = ((Child.poll child).1, Tapped.mk (Child.poll child).2) := rfl
  rw [stopChild, stopChild, hpoll]
  rcases Child.poll child with ⟨e | _ | status, left⟩
  · rfl
  · rfl
  · rfl

theorem kill_tapped (w : ProcessWorker χ) (s : σ) (log : List WireEvent) :
    w.tapped.kill (s, log) = ((w.kill s).1, (w.kill s).2.1.tapped, ((w.kill s).2.2, log)) := by
  have hstop : stopChild w.tapped.child = _ := stopChild_tapped w.child
  have hstate : w.tapped.state = w.state := rfl
  rw [kill, kill, hstate]
  split
  · rfl
  · rw [hstop]
    rcases stopChild w.child with ⟨e | _ | status, child⟩
    · rfl
    · rfl
    · rfl

theorem leave_tapped (w : ProcessWorker χ) (s : σ) (log : List WireEvent) :
    w.tapped.leave (s, log) = ((w.leave s).1, (w.leave s).2.1.tapped, ((w.leave s).2.2, log)) := by
  rcases htaken : Child.takeEnd w.child s with ⟨reaction, child, s'⟩
  have htaken' : Child.takeEnd w.tapped.child (s, log) = (reaction, ⟨child⟩, (s', log)) := by
    have hsame := Tapped.takeEnd_eq w.child s log
    rwa [htaken] at hsame
  have hreact : w.tapped.inputClosed.react (Tapped.mk child) reaction
      = (w.inputClosed.react child reaction).tapped := rfl
  rw [leave, leave, htaken, htaken']
  dsimp only
  rw [hreact, drain_tapped]
  rcases (w.inputClosed.react child reaction).drain with ⟨reply, left⟩
  cases reply with
  | done =>
      dsimp only
      rw [waitExit_tapped]
  | failed e => rfl
  | never => rfl

theorem drain_kept (w : ProcessWorker χ) :
    w.drain.2.index = w.index ∧ w.drain.2.inputOpen = w.inputOpen := by
  unfold drain
  dsimp only
  split
  · exact ⟨rfl, rfl⟩
  · exact ⟨rfl, rfl⟩

theorem waitExit_kept (w : ProcessWorker χ) :
    w.waitExit.2.index = w.index ∧ w.waitExit.2.inputOpen = w.inputOpen := by
  unfold waitExit
  split
  · exact ⟨rfl, rfl⟩
  · exact ⟨rfl, rfl⟩
  · exact ⟨rfl, rfl⟩

theorem leave_kept (w : ProcessWorker χ) (s : σ) :
    (w.leave s).2.1.index = w.index ∧ (w.leave s).2.1.inputOpen = false := by
  unfold leave
  rcases Child.takeEnd w.child s with ⟨reaction, child, s'⟩
  rcases hdrained : (w.inputClosed.react child reaction).drain with ⟨reply, left⟩
  have hkept : left.index = w.index ∧ left.inputOpen = false := by
    have hdrain := drain_kept (w.inputClosed.react child reaction)
    rwa [hdrained] at hdrain
  dsimp only
  rw [hdrained]
  cases reply with
  | done =>
      obtain ⟨hindex, hclosed⟩ := waitExit_kept left
      exact ⟨hindex.trans hkept.1, hclosed.trans hkept.2⟩
  | failed e => exact hkept
  | never => exact hkept

end

/-! ### What one call does -/

/-- `Unmoved w c reply`: a call that comes back at once and leaves everything as it is. -/
inductive Unmoved (w : ProcessWorker χ) : ProcessCall → Reply → Prop where
  | busy {task : Task} (hstate : w.state ≠ .idle) :
      Unmoved w (.dispatch task) (w.refuse "accept a task")
  | unsendable {task : Task} {e : CommandError} (hidle : w.state = .idle)
      (htask : Command.ofTask task = .error e) :
      Unmoved w (.dispatch task) (.failed (.protocol w.index e))
  | closedToTasks {task : Task} (hidle : w.state = .idle) (htask : task.Sendable)
      (hclosed : w.inputOpen = false) : Unmoved w (.dispatch task) (w.refuse "receive commands")
  | unasked {bounded : Bool} (hstate : ∀ kind, w.state ≠ .running kind) :
      Unmoved w (.await bounded) (w.refuse "report a result")
  | midTask {kind : TaskKind} (hrunning : w.state = .running kind) :
      Unmoved w .terminate (w.refuse "shut down gracefully")
  | closedToDone (hidle : w.state = .idle) (hclosed : w.inputOpen = false) :
      Unmoved w .terminate (w.refuse "receive commands")
  | alreadyGone (hstate : w.state = .terminated) : Unmoved w .terminate .done
  | alreadyKilled (hstate : w.state = .terminated) : Unmoved w .kill .done

/-- The calls that write, and what they write. -/
inductive Says : ProcessCall → Command → Prop where
  | task {task : Task} (htask : task.Sendable) : Says (.dispatch task) (.run task)
  | done : Says .terminate .done

/-- `Called w s c lines ended`: one call to a worker, with the lines that it wrote. -/
inductive Called [Child χ σ] (w : ProcessWorker χ) (s : σ) :
    ProcessCall → List WireEvent → Reply × ProcessWorker χ × σ → Prop where
  | unmoved {c : ProcessCall} {reply : Reply} (h : Unmoved w c reply) :
      Called w s c [] (reply, w, s)
  /-- The line was not taken. -/
  | rejected {c : ProcessCall} {command : Command} {e : IoError} {child : χ} {s' : σ}
      (hidle : w.state = .idle) (hopen : w.inputOpen = true) (hsaid : Says c command) :
      Called w s c [.line command.wire false]
        (.failed (.send w.index command.line e), { w with child }, s')
  | sent {task : Task} {reaction : Reaction} {child : χ} {s' : σ} (hidle : w.state = .idle)
      (hopen : w.inputOpen = true) (htask : task.Sendable) :
      Called w s (.dispatch task) [.line (Command.wire (.run task)) true]
        (.done, { w.react child reaction with state := .running task.kind }, s')
  | waited {bounded : Bool} {kind : TaskKind} {reply : Reply} {state : WorkerState}
      {decoder : LineDecoder} {incoming : List Arrival} (hrunning : w.state = .running kind)
      (hended : WaitEnded w.state reply state) :
      Called w s (.await bounded) [] (reply, { w with state, decoder, incoming }, s)
  /-- The child was told that it is over, and its input is closed whatever came of that. -/
  | parted {reply : Reply} {w' : ProcessWorker χ} {s' : σ} (hidle : w.state = .idle)
      (hopen : w.inputOpen = true) (hindex : w'.index = w.index) (hclosed : w'.inputOpen = false) :
      Called w s .terminate [.line (Command.wire .done) true] (reply, w', s')
  | killed {child : χ} (hstate : w.state ≠ .terminated) :
      Called w s .kill [] (.done, { w with inputOpen := false, child, state := .terminated }, s)
  /-- The child may still be there, with its input closed, and the state does not show it. -/
  | unkilled {reply : Reply} {child : χ} (hstate : w.state ≠ .terminated)
      (hcut : reply.isCutShort = true) :
      Called w s .kill [] (reply, { w with inputOpen := false, child }, s)

section

variable [Child χ σ] {w : ProcessWorker χ} {s : σ} {c : ProcessCall} {reply : Reply}

theorem Unmoved.tapped (h : Unmoved w c reply) : Unmoved w.tapped c reply := by
  cases h with
  | busy hstate => exact .busy hstate
  | unsendable hidle htask => exact .unsendable hidle htask
  | closedToTasks hidle htask hclosed => exact .closedToTasks hidle htask hclosed
  | unasked hstate => exact .unasked hstate
  | midTask hrunning => exact .midTask hrunning
  | closedToDone hidle hclosed => exact .closedToDone hidle hclosed
  | alreadyGone hstate => exact .alreadyGone hstate
  | alreadyKilled hstate => exact .alreadyKilled hstate

theorem dispatch_of_sendable {task : Task} (hidle : w.state = .idle) (htask : task.Sendable) (s : σ) :
    w.dispatch task s = match w.send (.run task) s with
      | (.done, w, s) => (.done, { w with state := .running task.kind }, s)
      | failed => failed := by
  rw [dispatch, if_neg (not_not.mpr hidle)]
  split
  · next e hcommand => cases htask.ofTask.symm.trans hcommand
  · next command hcommand =>
      obtain rfl := Except.ok.inj (htask.ofTask.symm.trans hcommand)
      rfl

theorem terminate_of_idle (hidle : w.state = .idle) (hnot : (w.send .done s).1 ≠ .done) :
    w.terminate s = w.send .done s := by
  rw [terminate, hidle]
  dsimp only
  split
  · next h => exact absurd (congrArg Prod.fst h) hnot
  · rfl

theorem Unmoved.perform_eq (h : Unmoved w c reply) (s : σ) : c.perform w s = (reply, w, s) := by
  cases h with
  | busy hstate => rw [ProcessCall.perform, dispatch, if_pos hstate]
  | unsendable hidle htask =>
      rw [ProcessCall.perform, dispatch, if_neg (not_not.mpr hidle), htask]
  | closedToTasks hidle htask hclosed =>
      rw [ProcessCall.perform, dispatch_of_sendable hidle htask, send_of_closed hclosed]
      rfl
  | unasked hstate =>
      rw [ProcessCall.perform, awaitResult]
      split
      · next kind hrunning => exact absurd hrunning (hstate kind)
      · rfl
  | midTask hrunning => rw [ProcessCall.perform, terminate, hrunning]
  | closedToDone hidle hclosed =>
      have hsend : w.send .done s = (w.refuse "receive commands", w, s) := send_of_closed hclosed
      rw [ProcessCall.perform, terminate_of_idle hidle (by simp [hsend, refuse]), hsend]
  | alreadyGone hstate => rw [ProcessCall.perform, terminate, hstate]
  | alreadyKilled hstate => rw [ProcessCall.perform, kill, if_pos hstate]

/-! ### The tap changes nothing -/

theorem send_tapped_error {command : Command} {e : IoError} {child : χ} {s' : σ}
    (hopen : w.inputOpen = true) (h : Child.takeLine command.wire w.child s = (.error e, child, s'))
    (log : List WireEvent) :
    w.tapped.send command (s, log)
      = (.failed (.send w.index command.line e), tapped { w with child },
        (s', log ++ [.line command.wire false])) := by
  have htapped := Tapped.takeLine_eq command.wire w.child s log
  rw [h] at htapped
  exact send_of_error (w := w.tapped) hopen htapped

theorem send_tapped_ok {command : Command} {reaction : Reaction} {child : χ} {s' : σ}
    (hopen : w.inputOpen = true) (h : Child.takeLine command.wire w.child s = (.ok reaction, child, s'))
    (log : List WireEvent) :
    w.tapped.send command (s, log)
      = (.done, (w.react child reaction).tapped, (s', log ++ [.line command.wire true])) := by
  have htapped := Tapped.takeLine_eq command.wire w.child s log
  rw [h] at htapped
  exact send_of_ok (w := w.tapped) hopen htapped

/-- `Follows c w s log`: the tapped worker goes through a call as the plain one does, and its lines
are put down. -/
def Follows (c : ProcessCall) (w : ProcessWorker χ) (s : σ) (log : List WireEvent) : Prop :=
  ∃ lines, c.perform w.tapped (s, log)
      = ((c.perform w s).1, (c.perform w s).2.1.tapped, ((c.perform w s).2.2, log ++ lines))
    ∧ Called w s c lines (c.perform w s)

theorem Unmoved.follows (h : Unmoved w c reply) (s : σ) (log : List WireEvent) :
    Follows c w s log := by
  refine ⟨[], ?_, ?_⟩
  · rw [h.perform_eq, h.tapped.perform_eq, List.append_nil]
  · rw [h.perform_eq]
    exact .unmoved h

theorem dispatch_follows (task : Task) (w : ProcessWorker χ) (s : σ) (log : List WireEvent) :
    Follows (.dispatch task) w s log := by
  by_cases hidle : w.state = .idle
  case neg => exact (Unmoved.busy hidle).follows s log
  cases hcommand : Command.ofTask task with
  | error e => exact (Unmoved.unsendable hidle hcommand).follows s log
  | ok command =>
      obtain ⟨hinput, houtput, rfl⟩ := Command.ofTask_eq_ok_iff.mp hcommand
      have htask : task.Sendable := ⟨hinput, houtput⟩
      cases hopen : w.inputOpen with
      | false => exact (Unmoved.closedToTasks hidle htask hopen).follows s log
      | true =>
          have hidle' : w.tapped.state = .idle := hidle
          rcases htaken : Child.takeLine (Command.wire (.run task)) w.child s
            with ⟨e | reaction, child, s'⟩
          · have hplain : (ProcessCall.dispatch task).perform w s
                = (.failed (.send w.index (Command.run task).line e), { w with child }, s') := by
              rw [ProcessCall.perform, dispatch_of_sendable hidle htask, send_of_error hopen htaken]
            refine ⟨[.line (Command.wire (.run task)) false], ?_, ?_⟩
            · rw [hplain, ProcessCall.perform, dispatch_of_sendable hidle' htask,
                send_tapped_error hopen htaken]
            · rw [hplain]
              exact .rejected hidle hopen (.task htask)
          · have hplain : (ProcessCall.dispatch task).perform w s
                = (.done, { w.react child reaction with state := .running task.kind }, s') := by
              rw [ProcessCall.perform, dispatch_of_sendable hidle htask, send_of_ok hopen htaken]
            refine ⟨[.line (Command.wire (.run task)) true], ?_, ?_⟩
            · rw [hplain, ProcessCall.perform, dispatch_of_sendable hidle' htask,
                send_tapped_ok hopen htaken]
              rfl
            · rw [hplain]
              exact .sent hidle hopen htask

theorem await_follows (bounded : Bool) (w : ProcessWorker χ) (s : σ) (log : List WireEvent) :
    Follows (.await bounded) w s log := by
  by_cases hrunning : ∃ kind, w.state = .running kind
  case neg =>
    have hunasked : ∀ kind, w.state ≠ .running kind := fun kind h => hrunning ⟨kind, h⟩
    exact (Unmoved.unasked hunasked).follows s log
  obtain ⟨kind, hrunning⟩ := hrunning
  obtain ⟨reply, state, decoder, incoming, hended, hawait⟩ := awaitStatus_withChild bounded w
  have hplain : (ProcessCall.await bounded).perform w s
      = (reply, { w with state, decoder, incoming }, s) := by
    rw [ProcessCall.perform, awaitResult, hrunning]
    exact congrArg (fun r => (r.1, r.2, s)) (hawait χ w.child)
  refine ⟨[], ?_, ?_⟩
  · have hrunning' : w.tapped.state = .running kind := hrunning
    rw [hplain, ProcessCall.perform, awaitResult, hrunning', List.append_nil]
    exact congrArg (fun r => (r.1, r.2, (s, log))) (hawait (Tapped χ) ⟨w.child⟩)
  · rw [hplain]
    exact .waited hrunning hended

theorem terminate_follows (w : ProcessWorker χ) (s : σ) (log : List WireEvent) :
    Follows .terminate w s log := by
  cases hstate : w.state with
  | running kind => exact (Unmoved.midTask hstate).follows s log
  | terminated => exact (Unmoved.alreadyGone hstate).follows s log
  | idle =>
      cases hopen : w.inputOpen with
      | false => exact (Unmoved.closedToDone hstate hopen).follows s log
      | true =>
          have hstate' : w.tapped.state = .idle := hstate
          rcases htaken : Child.takeLine (Command.wire .done) w.child s
            with ⟨e | reaction, child, s'⟩
          · have hsend := send_of_error hopen htaken
            have hsend' := send_tapped_error hopen htaken log
            have hplain : ProcessCall.terminate.perform w s
                = (.failed (.send w.index Command.done.line e), { w with child }, s') := by
              rw [ProcessCall.perform, terminate_of_idle hstate (by simp [hsend]), hsend]
            refine ⟨[.line (Command.wire .done) false], ?_, ?_⟩
            · rw [hplain, ProcessCall.perform, terminate_of_idle hstate' (by simp [hsend']), hsend']
            · rw [hplain]
              exact .rejected hstate hopen .done
          · have hplain : ProcessCall.terminate.perform w s = (w.react child reaction).leave s' :=
              terminate_of_ok hstate hopen htaken
            obtain ⟨hindex, hclosed⟩ := leave_kept (w.react child reaction) s'
            have htapped := Tapped.takeLine_eq (Command.wire .done) w.child s log
            rw [htaken] at htapped
            refine ⟨[.line (Command.wire .done) true], ?_, ?_⟩
            · rw [hplain, ← leave_tapped]
              exact terminate_of_ok hstate' hopen htapped
            · rw [hplain]
              exact .parted hstate hopen hindex hclosed

theorem kill_follows (w : ProcessWorker χ) (s : σ) (log : List WireEvent) :
    Follows .kill w s log := by
  by_cases hstate : w.state = .terminated
  case pos => exact (Unmoved.alreadyKilled hstate).follows s log
  refine ⟨[], ?_, ?_⟩
  · rw [List.append_nil]
    exact kill_tapped w s log
  · rcases w.kill_cases s with ⟨hgone, -⟩ | ⟨-, child, hkill | ⟨e, hkill⟩ | hkill⟩
    · exact absurd hgone hstate
    all_goals rw [ProcessCall.perform, hkill]
    · exact .killed hstate
    · exact .unkilled hstate rfl
    · exact .unkilled hstate rfl

theorem perform_follows (c : ProcessCall) (w : ProcessWorker χ) (s : σ) (log : List WireEvent) :
    Follows c w s log := by
  cases c with
  | dispatch task => exact dispatch_follows task w s log
  | await bounded => exact await_follows bounded w s log
  | terminate => exact terminate_follows w s log
  | kill => exact kill_follows w s log

end

end ProcessWorker

end MapReduce
