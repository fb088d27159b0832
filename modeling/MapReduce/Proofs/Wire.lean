import MapReduce.Proofs.Tap

/-!
# Discipline on the wire

A worker process is called in any order, also in orders that no pool would choose, while its child
does whatever it likes: it writes, falls silent, exits, takes no more lines, or cannot be waited for
or stopped. Where the worker has got to is partly in its state and partly in whether the input of the
child is still open, and a failure may leave the two apart. Still no task is written while a result is
out, nothing is written after a `done` that was taken, and a worker that is gone stays gone.
-/

namespace MapReduce

open ProcessWorker (Called Unmoved Says WaitEnded)

/-- A worker process, what it shares with others, and all that was seen of it so far. -/
structure Wire (χ σ : Type) where
  worker : ProcessWorker χ
  shared : σ
  log : List WireEvent

inductive WireStep (χ σ : Type) where
  | call (c : ProcessCall)
  /-- The child runs on, its output arrives, and others change what is shared. -/
  | meanwhile (child : χ) (reaction : Reaction) (shared : σ)

/-- The reply of a worker that is terminated. -/
def ProcessCall.replyWhenGone (index : Nat) : ProcessCall → Reply
  | .dispatch _ => .failed (.invalidState index .terminated "accept a task")
  | .await _ => .failed (.invalidState index .terminated "report a result")
  | .terminate | .kill => .done

theorem Reply.not_isCutShort {reply : Reply} (h : reply.isReport = true) :
    reply.isCutShort = false := by
  cases reply with
  | done => rfl
  | failed e => cases e <;> first | rfl | simp [isReport] at h
  | never => simp [isReport] at h

/-- The task was declined before anything was written. -/
def WorkerError.isDeclined : WorkerError → Bool
  | .invalidState .. | .protocol .. => true
  | _ => false

/-- A wait came back with the outcome of a task. -/
def WireEvent.IsResult : WireEvent → Prop
  | .ended (.await _) reply _ => reply.isReport = true
  | _ => False

def IsTaskLine (line : Bytes) : Prop :=
  ∃ task : Task, task.Sendable ∧ line = Command.wire (.run task)

theorem not_isTaskLine_done : ¬ IsTaskLine (Command.wire .done) := by
  rintro ⟨task, ⟨hinput, houtput⟩, h⟩
  exact LiveWorker.line_ne_done hinput houtput h.symm

namespace Wire

variable {χ σ : Type}

def start (index : Nat) (child : χ) (reaction : Reaction) (shared : σ) : Wire χ σ :=
  ⟨.ofChild index child reaction, shared, []⟩

section

variable [Child χ σ]

def reply (x : Wire χ σ) (c : ProcessCall) : Reply :=
  (c.perform x.worker x.shared).1

/-- Makes a call, with the tap open. -/
def call (x : Wire χ σ) (c : ProcessCall) : Wire χ σ :=
  let ended := c.perform x.worker.tapped (x.shared, x.log)
  { worker := ended.2.1.untapped
    shared := ended.2.2.1
    log := ended.2.2.2 ++ [.ended c ended.1 ended.2.1.state] }

/-- A call that came back with its reply and did nothing else. -/
def answered (x : Wire χ σ) (c : ProcessCall) : Wire χ σ :=
  { x with log := x.log ++ [.ended c (x.reply c) x.worker.state] }

def step (x : Wire χ σ) : WireStep χ σ → Wire χ σ
  | .call c => x.call c
  | .meanwhile child reaction shared => { x with worker := x.worker.react child reaction, shared }

def run (x : Wire χ σ) (steps : List (WireStep χ σ)) : Wire χ σ :=
  steps.foldl step x

/-- What is seen of a call is what the plain worker does, and the lines on the wire. -/
theorem call_called (x : Wire χ σ) (c : ProcessCall) :
    ∃ lines, x.call c = ⟨(c.perform x.worker x.shared).2.1, (c.perform x.worker x.shared).2.2,
        x.log ++ lines ++ [.ended c (x.reply c) (c.perform x.worker x.shared).2.1.state]⟩
      ∧ Called x.worker x.shared c lines (c.perform x.worker x.shared) := by
  obtain ⟨lines, htapped, hcalled⟩ := ProcessWorker.perform_follows c x.worker x.shared x.log
  refine ⟨lines, ?_, hcalled⟩
  rw [call, htapped]
  rfl

theorem call_of_unmoved {x : Wire χ σ} {c : ProcessCall} {reply : Reply}
    (h : Unmoved x.worker c reply) : x.call c = x.answered c ∧ x.reply c = reply := by
  have hplain := h.perform_eq x.shared
  have htapped := h.tapped.perform_eq (x.shared, x.log)
  constructor
  · rw [call, answered, Wire.reply, htapped, hplain]
    rfl
  · rw [Wire.reply, hplain]

end

/-! ### What the log says -/

/-- Between two task lines, the first of which was taken, there is a result. -/
def Alternates (log : List WireEvent) : Prop :=
  ∀ before line middle line' taken after,
    log = before ++ .line line true :: (middle ++ .line line' taken :: after) →
      IsTaskLine line → IsTaskLine line' → ∃ e ∈ middle, e.IsResult

/-- Every task line that was taken has had its result. -/
def Settled (log : List WireEvent) : Prop :=
  ∀ before line after, log = before ++ .line line true :: after → IsTaskLine line →
    ∃ e ∈ after, e.IsResult

/-- Nothing is written after a `done` that was taken. -/
def Hushed (e e' : WireEvent) : Prop :=
  e = .line (Command.wire .done) true → ∀ line taken, e' ≠ .line line taken

/-- Once a call has left the worker terminated, the calls after it do too. -/
def StaysGone (index : Nat) (e e' : WireEvent) : Prop :=
  ∀ c reply, e = .ended c reply .terminated →
    ∃ c', e' = .ended c' (c'.replyWhenGone index) .terminated

/-- What is known of a log when the worker is in this state and the input of its child is open or
not. -/
structure Sound (index : Nat) (log : List WireEvent) (state : WorkerState) (inputOpen : Bool) :
    Prop where
  commands : ∀ line taken, .line line taken ∈ log → line = Command.wire .done ∨ IsTaskLine line
  alternates : Alternates log
  settled : state = .idle → Settled log
  hushed : log.Pairwise Hushed
  unclosed : inputOpen = true → .line (Command.wire .done) true ∉ log
  staysGone : log.Pairwise (StaysGone index)
  present : state ≠ .terminated → ∀ c reply, .ended c reply .terminated ∉ log

theorem nil_sound (index : Nat) : Sound index [] .idle true where
  commands := by simp
  alternates := by simp [Alternates]
  settled := by simp [Settled]
  hushed := .nil
  unclosed := by simp
  staysGone := .nil
  present := by simp

/-- The last of a list, or one before it. -/
theorem concat_eq_append_cons {α : Type} {xs before after : List α} {a b : α}
    (h : xs ++ [a] = before ++ b :: after) :
    (after = [] ∧ xs = before ∧ a = b) ∨ ∃ rest, after = rest ++ [a] ∧ xs = before ++ b :: rest := by
  rcases List.eq_nil_or_concat' after with rfl | ⟨rest, last, rfl⟩
  · obtain ⟨hxs, ha⟩ := List.append_inj' h rfl
    exact Or.inl ⟨rfl, hxs, List.head_eq_of_cons_eq ha⟩
  · rw [← List.cons_append, ← List.append_assoc] at h
    obtain ⟨hxs, ha⟩ := List.append_inj' h rfl
    exact Or.inr ⟨rest, by rw [List.head_eq_of_cons_eq ha], hxs⟩

section

variable {log : List WireEvent} {line : Bytes} {taken : Bool} {e : WireEvent}

theorem Settled.concat (h : Settled log) (he : ∀ line, e = .line line true → ¬ IsTaskLine line) :
    Settled (log ++ [e]) := by
  intro before line after hlog hline
  rcases concat_eq_append_cons hlog with ⟨-, -, hlast⟩ | ⟨rest, rfl, hrest⟩
  · exact absurd hline (he line hlast)
  · obtain ⟨e', he', hresult⟩ := h before line rest hrest hline
    exact ⟨e', List.mem_append_left _ he', hresult⟩

/-- A result settles all that came before it. -/
theorem settled_concat (hresult : e.IsResult) : Settled (log ++ [e]) := by
  intro before line after hlog _
  rcases concat_eq_append_cons hlog with ⟨-, -, rfl⟩ | ⟨rest, rfl, -⟩
  · exact absurd hresult id
  · exact ⟨e, List.mem_append_right _ (List.mem_singleton_self e), hresult⟩

theorem Alternates.concat (h : Alternates log)
    (he : ∀ line taken, e = .line line taken → IsTaskLine line → Settled log) :
    Alternates (log ++ [e]) := by
  intro before line middle line' taken after hlog hline hline'
  rw [← List.cons_append, ← List.append_assoc] at hlog
  rcases concat_eq_append_cons hlog with ⟨-, hbefore, hlast⟩ | ⟨rest, -, hrest⟩
  · exact he line' taken hlast hline' before line middle hbefore hline
  · rw [List.append_assoc, List.cons_append] at hrest
    exact h before line middle line' taken rest hrest hline hline'

theorem pairwise_concat {R : WireEvent → WireEvent → Prop} (h : log.Pairwise R)
    (he : ∀ e' ∈ log, R e' e) : (log ++ [e]).Pairwise R := by
  rw [List.pairwise_append]
  refine ⟨h, List.pairwise_singleton R e, fun e' he' e'' he'' => ?_⟩
  rw [List.mem_singleton.mp he'']
  exact he e' he'

end

/-! ### One event more -/

section

variable {index : Nat} {log : List WireEvent} {state state' : WorkerState} {inputOpen inputOpen' : Bool}

/-- A line is written by an idle worker that holds the input of its child. If it is taken, a task
leaves the worker busy, and `done` closes the input. -/
theorem Sound.line (h : Sound index log .idle true) {line : Bytes} {taken : Bool}
    (hcommand : line = Command.wire .done ∨ IsTaskLine line)
    (hbusy : taken = true → IsTaskLine line → state ≠ .idle)
    (hclosed : taken = true → line = Command.wire .done → inputOpen = false) :
    Sound index (log ++ [.line line taken]) state inputOpen where
  commands := by
    intro line' taken' hmem
    rcases List.mem_append.mp hmem with hmem | hmem
    · exact h.commands line' taken' hmem
    · obtain ⟨rfl, rfl⟩ := by simpa using hmem
      exact hcommand
  alternates := h.alternates.concat fun _ _ _ _ => h.settled rfl
  settled := by
    rintro rfl
    refine (h.settled rfl).concat fun line' hline htask => ?_
    obtain ⟨rfl, rfl⟩ := by simpa using hline
    exact hbusy rfl htask rfl
  hushed := pairwise_concat h.hushed fun e he hdone => absurd (hdone ▸ he) (h.unclosed rfl)
  unclosed := by
    intro hopen hmem
    rcases List.mem_append.mp hmem with hmem | hmem
    · exact h.unclosed rfl hmem
    · obtain ⟨hline, htaken⟩ := by simpa using hmem
      exact Bool.false_ne_true ((hclosed htaken hline.symm).symm.trans hopen)
  staysGone := pairwise_concat h.staysGone fun e he c reply hgone =>
    absurd (hgone ▸ he) (h.present (by simp) c reply)
  present := by
    intro _ c reply hmem
    rcases List.mem_append.mp hmem with hmem | hmem
    · exact h.present (by simp) c reply hmem
    · simp at hmem

/-- A call ends. It leaves a worker idle that was idle before, or with a result. -/
theorem Sound.ended (h : Sound index log state inputOpen) {c : ProcessCall} {reply : Reply}
    (hidle : state' = .idle → state = .idle ∨ (WireEvent.ended c reply state').IsResult)
    (hopen : inputOpen' = true → inputOpen = true)
    (hgone : state = .terminated → reply = c.replyWhenGone index ∧ state' = .terminated) :
    Sound index (log ++ [.ended c reply state']) state' inputOpen' where
  commands := by
    intro line taken hmem
    rcases List.mem_append.mp hmem with hmem | hmem
    · exact h.commands line taken hmem
    · simp at hmem
  alternates := h.alternates.concat fun _ _ hline => by cases hline
  settled := by
    intro hstate
    rcases hidle hstate with hbefore | hresult
    · exact (h.settled hbefore).concat fun _ hline => by cases hline
    · exact settled_concat hresult
  hushed := pairwise_concat h.hushed fun _ _ _ _ _ hline => by cases hline
  unclosed := by
    intro hopen' hmem
    rcases List.mem_append.mp hmem with hmem | hmem
    · exact h.unclosed (hopen hopen') hmem
    · simp at hmem
  staysGone := by
    refine pairwise_concat h.staysGone fun e he c' reply' hlast => ?_
    by_cases hstate : state = .terminated
    · obtain ⟨rfl, rfl⟩ := hgone hstate
      exact ⟨c, rfl⟩
    · exact absurd (hlast ▸ he) (h.present hstate c' reply')
  present := by
    intro hstate c' reply' hmem
    rcases List.mem_append.mp hmem with hmem | hmem
    · exact h.present (fun hbefore => hstate (hgone hbefore).2) c' reply' hmem
    · obtain ⟨-, -, rfl⟩ := by simpa using hmem
      exact hstate rfl

end

/-! ### One step -/

section

variable [Child χ σ] {index : Nat}

theorem unmoved_of_gone {w : ProcessWorker χ} (hstate : w.state = .terminated) (c : ProcessCall) :
    Unmoved w c (c.replyWhenGone w.index) := by
  have hgone : ∀ action, w.refuse action = .failed (.invalidState w.index .terminated action) := by
    intro action
    rw [ProcessWorker.refuse, hstate]
  cases c with
  | dispatch task =>
      rw [ProcessCall.replyWhenGone, ← hgone]
      exact .busy (by simp [hstate])
  | await bounded =>
      rw [ProcessCall.replyWhenGone, ← hgone]
      exact .unasked (by simp [hstate])
  | terminate => exact .alreadyGone hstate
  | kill => exact .alreadyKilled hstate

theorem reply_of_gone {w : ProcessWorker χ} {c : ProcessCall} {reply : Reply} (s : σ)
    (hstate : w.state = .terminated) (h : Unmoved w c reply) : reply = c.replyWhenGone w.index :=
  congrArg Prod.fst ((h.perform_eq s).symm.trans ((unmoved_of_gone hstate c).perform_eq s))

/-- The log agrees with the worker. -/
structure Agrees (index : Nat) (x : Wire χ σ) : Prop where
  index_eq : x.worker.index = index
  sound : Sound index x.log x.worker.state x.worker.inputOpen

omit [Child χ σ] in
theorem start_agrees (index : Nat) (child : χ) (reaction : Reaction) (shared : σ) :
    Agrees index (start index child reaction shared) where
  index_eq := rfl
  sound := nil_sound index

theorem called_sound {w : ProcessWorker χ} {s : σ} {c : ProcessCall} {log lines : List WireEvent}
    {ended : Reply × ProcessWorker χ × σ} (h : Sound w.index log w.state w.inputOpen)
    (hcalled : Called w s c lines ended) :
    Sound w.index (log ++ lines ++ [.ended c ended.1 ended.2.1.state]) ended.2.1.state
      ended.2.1.inputOpen ∧ ended.2.1.index = w.index := by
  cases hcalled with
  | unmoved hunmoved =>
      rw [List.append_nil]
      exact ⟨h.ended Or.inl id fun hgone => ⟨reply_of_gone s hgone hunmoved, hgone⟩, rfl⟩
  | @rejected c command e child s' hidle hopen hsaid =>
      have hcommand : command.wire = Command.wire .done ∨ IsTaskLine command.wire := by
        cases hsaid with
        | task htask => exact Or.inr ⟨_, htask, rfl⟩
        | done => exact Or.inl rfl
      rw [hidle, hopen] at h
      have hline : Sound w.index (log ++ [.line command.wire false]) .idle true :=
        h.line hcommand nofun nofun
      exact ⟨hline.ended (fun _ => Or.inl rfl) (fun _ => rfl) nofun, rfl⟩
  | @sent task reaction child s' hidle hopen htask =>
      have htaskLine : IsTaskLine (Command.wire (.run task)) := ⟨task, htask, rfl⟩
      rw [hidle, hopen] at h
      have hline : Sound w.index (log ++ [.line (Command.wire (.run task)) true])
          (.running task.kind) true :=
        h.line (Or.inr htaskLine) (by simp) fun _ hdone =>
          absurd (hdone ▸ htaskLine) not_isTaskLine_done
      exact ⟨hline.ended (by simp) (fun _ => rfl) nofun, rfl⟩
  | waited hrunning hended =>
      rw [List.append_nil]
      cases hended with
      | result hreport => exact ⟨h.ended (fun _ => Or.inr hreport) id (by simp [hrunning]), rfl⟩
      | cutShort hcut => exact ⟨h.ended Or.inl id (by simp [hrunning]), rfl⟩
  | parted hidle hopen hindex hclosed =>
      rw [hidle, hopen] at h
      have hline : Sound w.index (log ++ [.line (Command.wire .done) true]) .idle false :=
        h.line (Or.inl rfl) (fun _ htask => absurd htask not_isTaskLine_done) fun _ _ => rfl
      rw [hclosed]
      exact ⟨hline.ended (fun _ => Or.inl rfl) id nofun, hindex⟩
  | killed hstate =>
      rw [List.append_nil]
      exact ⟨h.ended (by simp) (by simp) fun hgone => absurd hgone hstate, rfl⟩
  | unkilled hstate =>
      rw [List.append_nil]
      exact ⟨h.ended Or.inl nofun fun hgone => absurd hgone hstate, rfl⟩

theorem step_agrees {x : Wire χ σ} (h : Agrees index x) (step : WireStep χ σ) :
    Agrees index (x.step step) := by
  obtain ⟨rfl, hsound⟩ := h
  cases step with
  | meanwhile child reaction shared => exact ⟨rfl, hsound⟩
  | call c =>
      obtain ⟨lines, hcall, hcalled⟩ := x.call_called c
      obtain ⟨hsound', hindex⟩ := called_sound hsound hcalled
      rw [Wire.step, hcall]
      exact ⟨hindex, hsound'⟩

theorem run_agrees {x : Wire χ σ} (h : Agrees index x) (steps : List (WireStep χ σ)) :
    Agrees index (x.run steps) := by
  induction steps generalizing x with
  | nil => exact h
  | cons step steps ih => exact ih (step_agrees h step)

/-! ### The discipline -/

/-- What holds of a worker process whenever nobody is calling it. -/
structure Disciplined (index : Nat) (x : Wire χ σ) : Prop where
  /-- Only whole commands are written, and only those for tasks that can be sent. -/
  commands : ∀ line taken, .line line taken ∈ x.log → line = Command.wire .done ∨ IsTaskLine line
  /-- A task is written only while no result is out. -/
  alternates : Alternates x.log
  /-- A task that was handed over was written and taken. -/
  handedOver : ∀ task, x.reply (.dispatch task) = .done → (x.call (.dispatch task)).log
    = x.log ++ [.line (Command.wire (.run task)) true,
        .ended (.dispatch task) .done (.running task.kind)]
  /-- A busy or terminated worker refuses a task, and any worker one that cannot be sent. -/
  refuses : ∀ task, x.worker.state ≠ .idle ∨ ¬ task.Sendable →
    ∃ e, x.reply (.dispatch task) = .failed e ∧ e.isDeclined = true
  /-- When a task is refused nothing is written and nothing changes. -/
  refused : ∀ task e, x.reply (.dispatch task) = .failed e → e.isDeclined = true →
    x.call (.dispatch task) = x.answered (.dispatch task)
  hushed : x.log.Pairwise Hushed
  staysGone : x.log.Pairwise (StaysGone index)
  /-- Whatever a terminated worker is called for, it replies and does nothing else. -/
  gone : x.worker.state = .terminated → ∀ c,
    x.call c = x.answered c ∧ x.reply c = c.replyWhenGone index
  /-- A wait that ends without a result has only read, and leaves the worker at its task. -/
  cutShort : ∀ bounded, (x.reply (.await bounded)).isCutShort = true →
    ∃ kind decoder incoming, x.worker.state = .running kind
      ∧ x.call (.await bounded) = { x.answered (.await bounded) with
          worker := { x.worker with decoder, incoming } }
  /-- At its task a worker takes no other and cannot be asked to exit: it says so and does nothing. -/
  busy : ∀ kind, x.worker.state = .running kind →
    (∀ task, x.call (.dispatch task) = x.answered (.dispatch task)
      ∧ x.reply (.dispatch task) = .failed (.invalidState index (.running kind) "accept a task"))
    ∧ x.call .terminate = x.answered .terminate
      ∧ x.reply .terminate = .failed (.invalidState index (.running kind) "shut down gracefully")

theorem refusal_unmoved {x : Wire χ σ} {task : Task} {e : WorkerError}
    (hreply : x.reply (.dispatch task) = .failed e) (he : e.isDeclined = true) :
    x.call (.dispatch task) = x.answered (.dispatch task) := by
  obtain ⟨lines, -, hcalled⟩ := x.call_called (.dispatch task)
  rw [Wire.reply] at hreply
  generalize (ProcessCall.dispatch task).perform x.worker x.shared = ended at hcalled hreply
  cases hcalled with
  | unmoved hunmoved => exact (call_of_unmoved hunmoved).1
  | rejected =>
      obtain rfl := Reply.failed.inj hreply
      simp [WorkerError.isDeclined] at he
  | sent => cases hreply

theorem dispatch_refused (x : Wire χ σ) {task : Task} (h : x.worker.state ≠ .idle ∨ ¬ task.Sendable) :
    ∃ e, x.reply (.dispatch task) = .failed e ∧ e.isDeclined = true := by
  by_cases hidle : x.worker.state = .idle
  · have htask : ¬ task.Sendable := h.resolve_left (not_not.mpr hidle)
    cases hcommand : Command.ofTask task with
    | error e => exact ⟨_, (call_of_unmoved (.unsendable hidle hcommand)).2, rfl⟩
    | ok command =>
        obtain ⟨hinput, houtput, -⟩ := Command.ofTask_eq_ok_iff.mp hcommand
        exact absurd ⟨hinput, houtput⟩ htask
  · exact ⟨_, (call_of_unmoved (.busy hidle)).2, rfl⟩

theorem dispatch_written {x : Wire χ σ} {task : Task} (hreply : x.reply (.dispatch task) = .done) :
    (x.call (.dispatch task)).log = x.log ++ [.line (Command.wire (.run task)) true,
      .ended (.dispatch task) .done (.running task.kind)] := by
  obtain ⟨lines, hcall, hcalled⟩ := x.call_called (.dispatch task)
  rw [hcall, hreply]
  rw [Wire.reply] at hreply
  generalize (ProcessCall.dispatch task).perform x.worker x.shared = ended at hcalled hreply
  cases hcalled with
  | unmoved hunmoved =>
      obtain rfl : _ = Reply.done := hreply
      cases hunmoved
  | rejected => cases hreply
  | sent => simp

theorem await_cutShort {x : Wire χ σ} {bounded : Bool}
    (hcut : (x.reply (.await bounded)).isCutShort = true) :
    ∃ kind decoder incoming, x.worker.state = .running kind
      ∧ x.call (.await bounded) = { x.answered (.await bounded) with
          worker := { x.worker with decoder, incoming } } := by
  obtain ⟨lines, hcall, hcalled⟩ := x.call_called (.await bounded)
  rw [hcall, answered]
  generalize hended : (ProcessCall.await bounded).perform x.worker x.shared = ended at hcalled
  have hreply : x.reply (.await bounded) = ended.1 := by rw [Wire.reply, hended]
  rw [hreply] at hcut ⊢
  cases hcalled with
  | unmoved hunmoved =>
      cases hunmoved with
      | unasked hstate => simp [ProcessWorker.refuse, Reply.isCutShort] at hcut
  | rejected hidle hopen hsaid => cases hsaid
  | @waited _ kind reply state decoder incoming hrunning hwait =>
      refine ⟨kind, decoder, incoming, hrunning, ?_⟩
      cases hwait with
      | result hreport => exact absurd hcut (Bool.not_eq_true _ ▸ Reply.not_isCutShort hreport)
      | cutShort => rw [List.append_nil]

/-- **Lifecycle.** However a worker process is called, and whatever its child does from its start on,
a task is written only while no result is out, a task that is refused leaves no trace, nothing follows
a `done` that was taken, a terminated worker stays so and does nothing more, and a wait without a
result leaves a worker that takes no other task and cannot be asked to exit. -/
theorem run_disciplined (index : Nat) (child : χ) (reaction : Reaction) (shared : σ)
    (steps : List (WireStep χ σ)) :
    Disciplined index ((start index child reaction shared).run steps) := by
  obtain ⟨hindex, hsound⟩ := run_agrees (start_agrees index child reaction shared) steps
  generalize (start index child reaction shared).run steps = x at hindex hsound
  refine ⟨hsound.commands, hsound.alternates, fun task => dispatch_written,
    fun task => x.dispatch_refused, fun task e => refusal_unmoved, hsound.hushed, hsound.staysGone,
    ?_, fun bounded => await_cutShort, ?_⟩
  · intro hgone c
    rw [← hindex]
    exact call_of_unmoved (unmoved_of_gone hgone c)
  · intro kind hrunning
    have hrefuse : ∀ action, x.worker.refuse action
        = .failed (.invalidState index (.running kind) action) := by
      intro action
      rw [ProcessWorker.refuse, hindex, hrunning]
    rw [← hrefuse, ← hrefuse]
    exact ⟨fun task => call_of_unmoved (.busy (by simp [hrunning])),
      call_of_unmoved (.midTask hrunning)⟩

end

end Wire

end MapReduce
