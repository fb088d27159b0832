import Mathlib.Data.List.Forall2
import MapReduce.Proofs.Session
import MapReduce.Proofs.TaskSequence
import MapReduce.Pool
import MapReduce.Worker.Launch

/-!
# Workers that run tasks

A worker whose process is serving carries out the task it is handed and has the answer ready before
the result is awaited. A phase on a pool of such workers therefore runs the tasks one after the
other, all of them whatever becomes of each, and fails if one of them does.
-/

namespace MapReduce

open ProcessWorker (Unread lineLimit)

def Task.Sendable (task : Task) : Prop :=
  Command.isSendable task.input = true ∧ Command.isSendable task.output = true

theorem Task.Sendable.ofTask {task : Task} (h : task.Sendable) :
    Command.ofTask task = .ok (.run task) :=
  Command.ofTask_eq_ok_iff.mpr ⟨h.1, h.2, rfl⟩

namespace ProcessWorker

variable {χ : Type} {w : ProcessWorker χ}

theorem dispatch_unsendable {σ : Type} [Child χ σ] {task : Task} (hstate : w.state = .idle)
    (htask : ¬ task.Sendable) (s : σ) : ∃ e, w.dispatch task s = (.failed e, w, s) := by
  cases hcommand : Command.ofTask task with
  | error e =>
      rw [dispatch, if_neg (not_not.mpr hstate), hcommand]
      exact ⟨_, rfl⟩
  | ok command =>
      obtain ⟨hinput, houtput, -⟩ := Command.ofTask_eq_ok_iff.mp hcommand
      exact absurd ⟨hinput, houtput⟩ htask

/-- An answer that is all there is to read is what a wait ends with. -/
theorem awaitStatus_answer {kind : TaskKind} {result : Except TaskError Nat}
    (hended : w.ended = false) (hlull : Arrival.lull ∉ w.incoming)
    (hunread : Unread lineLimit w.decoder w.incoming []
      [Bytes.ofString (Status.ofResult kind result).line]) (bounded : Bool) :
    ∃ decoder incoming, w.awaitStatus bounded
        = (TaskRunner.report w.index kind result, { w with state := .idle, decoder, incoming })
      ∧ Arrival.lull ∉ incoming ∧ Unread lineLimit decoder incoming [] [] := by
  have hanswered : Answered lineLimit True w []
      [Bytes.ofString (Status.ofResult kind result).line] (w.awaitStatus bounded) :=
    awaitStatus_answered hended (fun _ => Or.inr hlull) hunread
  have hnot := TaskRunner.not_isRemark_answer kind result
  generalize w.awaitStatus bounded = answered at hanswered
  cases hanswered with
  | @answer decoder incoming remarks ls l hlines hremarks hanswer hsuffix hunread =>
      have hnone : ∀ l' ∈ ([] : List Bytes), IsRemark lineLimit l' := by simp
      obtain ⟨-, rfl, rfl⟩ := cut_unique_of hnone hnot hremarks hanswer
        ((List.nil_append _).trans hlines)
      refine ⟨decoder, incoming, ?_, fun hmem => hlull (hsuffix.subset hmem), hunread⟩
      simp only [TaskRunner.replyOf_reading, reader]
  | never hlines hremarks hunread hnone =>
      obtain ⟨more, -, rfl⟩ := exists_append_of_forall hremarks hnot
        (hlines.symm.trans (List.nil_append _).symm)
      exact absurd (hnone trivial rfl) (by simp)

/-- The worker has been handed a task of this kind. -/
def assigned (kind : TaskKind) (w : ProcessWorker χ) : ProcessWorker χ :=
  { w with state := .running kind }

theorem awaitStatus_of_nothing (hended : w.ended = true) (hincoming : w.incoming = [])
    (hdecoder : w.decoder = .withLimit lineLimit) (bounded : Bool) :
    w.awaitStatus bounded = (.failed (.unexpectedExit w.index), w) := by
  obtain ⟨index, state, child, inputOpen, incoming, ended, decoder⟩ := w
  obtain rfl : ended = true := hended
  obtain rfl : incoming = [] := hincoming
  obtain rfl : decoder = .withLimit lineLimit := hdecoder
  have hreceive : receive bounded true (.withLimit lineLimit) []
      = (.ended, .withLimit lineLimit, []) := rfl
  unfold awaitStatus
  split
  · next h => cases hreceive.symm.trans h
  · next h =>
      obtain ⟨-, rfl, rfl⟩ := hreceive.symm.trans h
      rfl
  · next h => cases hreceive.symm.trans h
  · next h => cases hreceive.symm.trans h

theorem drain_of_readable (hended : w.ended = true)
    (hreadable : ∀ e, Arrival.failure e ∉ w.incoming) :
    w.drain = (.done, { w with incoming := [], decoder := .withLimit lineLimit }) := by
  unfold drain
  dsimp only
  split
  · next e hfailure =>
      obtain ⟨arrival, harrival, he⟩ := List.exists_of_findSome?_eq_some hfailure
      cases arrival with
      | failure e => exact absurd harrival (hreadable e)
      | chunk bs => simp at he
      | lull => simp at he
  · simp [hended]

end ProcessWorker

namespace LiveWorker

variable {runner : TaskRunner} {w : ProcessWorker AnyChild} {task : Task} {t : FileTree}

/-- The process is serving, and these lines of its output are unread. -/
structure Serving (runner : TaskRunner) (lines : List Bytes) (w : ProcessWorker AnyChild) : Prop where
  child : w.child = .live (.serving runner)
  inputOpen : w.inputOpen = true
  ended : w.ended = false
  lull_notMem : Arrival.lull ∉ w.incoming
  unread : Unread lineLimit w.decoder w.incoming [] lines

structure Resting (runner : TaskRunner) (w : ProcessWorker AnyChild) : Prop
    extends Serving runner [] w where
  state : w.state = .idle

/-- The worker has carried out a task, and its answer is unread. -/
structure Waiting (runner : TaskRunner) (kind : TaskKind) (result : Except TaskError Nat)
    (w : ProcessWorker AnyChild) : Prop
    extends Serving runner [Bytes.ofString (Status.ofResult kind result).line] w where
  state : w.state = .running kind

theorem resting_ofChild (runner : TaskRunner) (index : Nat) :
    Resting runner (.ofChild index (.live (.serving runner)) .silence) where
  child := rfl
  inputOpen := rfl
  ended := rfl
  lull_notMem := by simp [ProcessWorker.ofChild, Reaction.silence]
  unread := by
    refine ⟨rfl, by simp [ProcessWorker.ofChild, Reaction.silence], by simp, ?_, ?_⟩
    · intro _
      simp [ProcessWorker.ofChild, Reaction.silence, LineDecoder.withLimit]
    · simp [ProcessWorker.ofChild, LineDecoder.withLimit]
  state := rfl

/-! ### Handing over and awaiting -/

theorem line_ne_done (hinput : Command.isSendable task.input = true)
    (houtput : Command.isSendable task.output = true) :
    (Bytes.ofString (Command.line (.run task))).terminate
      ≠ (Bytes.ofString (Command.line .done)).terminate := by
  intro h
  have hline := String.toList_injective (Utf8.encode_injective (List.append_cancel_right h))
  have hparse := Command.parse_line hinput houtput
  have hdone : Command.parse (Command.line .done) = .ok .done := rfl
  rw [hline, hdone] at hparse
  exact absurd (Except.ok.inj hparse) (by simp)

theorem dispatch_resting (h : Resting runner w) (hinput : Command.isSendable task.input = true)
    (houtput : Command.isSendable task.output = true) (t : FileTree) :
    ∃ w', Worker.dispatch task w t = (.done, w', (runner.run task t).2)
      ∧ Waiting runner task.kind (runner.run task t).1 w' ∧ w'.index = w.index := by
  obtain ⟨index, state, child, inputOpen, incoming, ended, decoder⟩ := w
  obtain ⟨⟨rfl, rfl, rfl, hlull, hunread⟩, rfl⟩ := h
  dsimp only at hlull hunread
  have hcommand : Command.ofTask task = .ok (.run task) :=
    Command.ofTask_eq_ok_iff.mpr ⟨hinput, houtput, rfl⟩
  have hanswer := (hunread.concat (Status.newline_notMem_line task.kind (runner.run task t).1)).deliver
    (LiveChild.statusLine (.ofResult task.kind (runner.run task t).1)).length
  simp only [Worker.dispatch, ProcessWorker.dispatch, ne_eq, not_true_eq_false, if_false, hcommand,
    ProcessWorker.send, if_true, Child.takeLine, AnyChild.takeLine, LiveChild.takeLine,
    runner.serve_line hinput houtput, line_ne_done hinput houtput, TaskRunner.contents_heard,
    ProcessWorker.react, Reaction.text]
  refine ⟨_, rfl, ⟨⟨rfl, rfl, rfl, by simpa using hlull, ?_⟩, rfl⟩, rfl⟩
  simpa [LiveChild.statusLine] using hanswer

/-- The answer of a worker that carried out a task is there when it is awaited. -/
theorem awaitResult_waiting {kind : TaskKind} {result : Except TaskError Nat}
    (h : Waiting runner kind result w) (bounded : Bool) (t : FileTree) :
    ∃ w', Worker.awaitResult bounded w t = (TaskRunner.report w.index kind result, w', t)
      ∧ Resting runner w' ∧ w'.index = w.index := by
  obtain ⟨decoder, incoming, hawait, hlull, hunread⟩ :=
    ProcessWorker.awaitStatus_answer h.ended h.lull_notMem h.unread bounded
  refine ⟨{ w with state := .idle, decoder, incoming }, ?_,
    ⟨⟨h.child, h.inputOpen, h.ended, hlull, hunread⟩, rfl⟩, rfl⟩
  simp only [Worker.awaitResult, ProcessWorker.awaitResult, h.state, hawait]

/-! ### Stopping -/

theorem serve_done (runner : TaskRunner) (t : FileTree) :
    runner.serve (Bytes.ofString (Command.line .done)).terminate .unbounded t
      = (.ok (), .unbounded, t) := rfl

theorem terminate_resting (h : Resting runner w) (t : FileTree) :
    ∃ w', Worker.terminate w t = (.done, w', t) := by
  obtain ⟨index, state, child, inputOpen, incoming, ended, decoder⟩ := w
  obtain ⟨⟨rfl, rfl, rfl, -, hunread⟩, rfl⟩ := h
  let left : ProcessWorker AnyChild :=
    ⟨index, .idle, .live (.exited (.ofCode 0)), false, incoming, true, decoder⟩
  have hdrain : left.drain
      = (.done, { left with incoming := [], decoder := .withLimit lineLimit }) :=
    ProcessWorker.drain_of_readable rfl hunread.readable
  simp only [Worker.terminate, ProcessWorker.terminate, ProcessWorker.send, if_true, Child.takeLine,
    AnyChild.takeLine, LiveChild.takeLine, serve_done, ProcessWorker.react, Child.takeEnd,
    AnyChild.takeEnd, LiveChild.takeEnd, Reaction.silence, List.append_nil, Bool.or_false,
    Bool.or_true, hdrain, left]
  exact ⟨_, rfl⟩

theorem stopChild_eq (child : AnyChild) :
    ∃ status left, ProcessWorker.stopChild child = (.ok (some status), left) := by
  unfold ProcessWorker.stopChild
  simp only [Child.poll, Child.stop]
  cases child.exit? with
  | none => exact ⟨_, _, rfl⟩
  | some status => exact ⟨status, child, rfl⟩

theorem kill_eq (w : ProcessWorker AnyChild) (t : FileTree) :
    ∃ w', Worker.kill w t = (.done, w', t) :=
  w.kill_of_stopChild stopChild_eq t

end LiveWorker

end MapReduce
