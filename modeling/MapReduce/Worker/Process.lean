import MapReduce.LineDecoder
import MapReduce.Status
import MapReduce.Worker

/-!
A worker that is a child process, driven by lines on its input and heard through its output.
-/
namespace MapReduce

inductive Arrival where
  | chunk (bs : Bytes)
  /-- Nothing arrives for longer than anyone with a deadline waits. -/
  | lull
  | failure (e : IoError)
  deriving DecidableEq, Repr

def Arrival.bytes : Arrival → Bytes
  | .chunk bs => bs
  | .lull | .failure _ => []

/-- What a child writes in answer to an event, and whether it then closes its output. -/
structure Reaction where
  arrivals : List Arrival
  ended : Bool
  deriving DecidableEq, Repr

namespace Reaction

def silence : Reaction := ⟨[], false⟩

def text (bs : Bytes) : Reaction := ⟨[.chunk bs], false⟩

end Reaction

/-- A child process. `σ` is what all children share. -/
class Child (χ : Type) (σ : outParam Type) where
  /-- A line is written to its input, as a whole or not at all. -/
  takeLine : Bytes → χ → σ → Except IoError Reaction × χ × σ
  takeEnd : χ → σ → Reaction × χ × σ
  /-- Looks whether it has exited. -/
  poll : χ → Except IoError (Option ExitStatus) × χ
  /-- Waits until it has exited, which may be never. -/
  wait : χ → Except IoError (Option ExitStatus) × χ
  /-- Stops it, and waits until it has exited. -/
  stop : χ → Except IoError (Option ExitStatus) × χ

structure ProcessWorker (χ : Type) where
  index : Nat
  state : WorkerState
  child : χ
  inputOpen : Bool
  incoming : List Arrival
  /-- Whether nothing comes after that. -/
  ended : Bool
  decoder : LineDecoder
  deriving Repr

namespace ProcessWorker

def lineLimit : Nat := 65536

inductive Received where
  | line (line : OutputLine)
  | ended
  | failed (e : IoError)
  | nothing

/-- How much output there is to read; a line read makes it less. -/
def unreadOf (decoder : LineDecoder) (incoming : List Arrival) : Nat :=
  decoder.unread + 2 * (incoming.flatMap Arrival.bytes).length

/-- Waits for a line. A caller with a deadline gives up at a lull. -/
def receive (bounded ended : Bool) (decoder : LineDecoder) :
    List Arrival → Received × LineDecoder × List Arrival
  | [] =>
    match if ended then decoder.last else decoder.next with
    | (some line, decoder) => (.line line, decoder, [])
    | (none, decoder) => (if ended then .ended else .nothing, decoder, [])
  | arrival :: rest =>
    match decoder.next with
    | (some line, decoder) => (.line line, decoder, arrival :: rest)
    | (none, decoder) =>
      match arrival with
      | .chunk bs => receive bounded ended (decoder.feed bs) rest
      | .lull =>
        if bounded then (.nothing, decoder, rest) else receive bounded ended decoder rest
      | .failure e => (.failed e, decoder, rest)

theorem unreadOf_lt_of_receive {bounded ended : Bool} {decoder decoder' : LineDecoder}
    {incoming incoming' : List Arrival} {line : OutputLine}
    (h : receive bounded ended decoder incoming = (.line line, decoder', incoming')) :
    unreadOf decoder' incoming' < unreadOf decoder incoming := by
  induction incoming generalizing decoder with
  | nil =>
    unfold receive at h
    cases ended with
    | true =>
      simp only [if_true] at h
      split at h
      · rename_i l d hl
        simp only [Prod.mk.injEq] at h
        have := LineDecoder.unread_lt_of_last hl
        rw [← h.2.1, ← h.2.2]
        simpa [unreadOf] using this
      · simp at h
    | false =>
      simp only [Bool.false_eq_true, if_false] at h
      split at h
      · rename_i l d hl
        simp only [Prod.mk.injEq] at h
        have := LineDecoder.unread_lt_of_next hl
        rw [← h.2.1, ← h.2.2]
        simpa [unreadOf] using this
      · simp at h
  | cons arrival rest ih =>
    unfold receive at h
    split at h
    · rename_i l d hl
      simp only [Prod.mk.injEq] at h
      have := LineDecoder.unread_lt_of_next hl
      rw [← h.2.1, ← h.2.2]
      simp only [unreadOf]
      omega
    · rename_i d hl
      have hle := LineDecoder.unread_le_of_next hl
      split at h
      · rename_i bs
        have := ih h
        simp only [unreadOf, LineDecoder.unread_feed, List.flatMap_cons, List.length_append,
          Arrival.bytes] at *
        omega
      · split at h
        · simp at h
        · have := ih h
          simp only [unreadOf, List.flatMap_cons, List.length_append] at *
          omega
      · simp at h

variable {χ σ : Type} [Child χ σ]

def ofChild (index : Nat) (child : χ) (reaction : Reaction) : ProcessWorker χ :=
  { index, state := .idle, child, inputOpen := true, incoming := reaction.arrivals,
    ended := reaction.ended, decoder := .withLimit lineLimit }

def react (w : ProcessWorker χ) (child : χ) (reaction : Reaction) : ProcessWorker χ :=
  { w with
    child
    incoming := w.incoming ++ reaction.arrivals
    ended := w.ended || reaction.ended }

def refuse (w : ProcessWorker χ) (action : String) : Reply :=
  .failed (.invalidState w.index w.state action)

def send (w : ProcessWorker χ) (command : Command) (s : σ) : Reply × ProcessWorker χ × σ :=
  if w.inputOpen then
    match Child.takeLine (Bytes.ofString command.line).terminate w.child s with
    | (.ok reaction, child, s) => (.done, w.react child reaction, s)
    | (.error e, child, s) => (.failed (.send w.index command.line e), { w with child }, s)
  else (w.refuse "receive commands", w, s)

def dispatch (task : Task) (w : ProcessWorker χ) (s : σ) : Reply × ProcessWorker χ × σ :=
  if w.state ≠ .idle then (w.refuse "accept a task", w, s)
  else
    match Command.ofTask task with
    | .error e => (.failed (.protocol w.index e), w, s)
    | .ok command =>
      match w.send command s with
      | (.done, w, s) => (.done, { w with state := .running task.kind }, s)
      | failed => failed

/-- Reads lines until one of them is the outcome of a task. -/
def awaitStatus (bounded : Bool) (w : ProcessWorker χ) : Reply × ProcessWorker χ :=
  match _h : receive bounded w.ended w.decoder w.incoming with
  | (.line line, decoder, incoming) =>
    match Status.parse line.bytes.show with
    | .ok => (.done, { w with state := .idle, decoder, incoming })
    | .error message =>
      (.failed (.reported w.index message), { w with state := .idle, decoder, incoming })
    | .diagnostic _ => awaitStatus bounded { w with decoder, incoming }
  | (.ended, decoder, incoming) =>
    (.failed (.unexpectedExit w.index), { w with decoder, incoming })
  | (.failed e, decoder, incoming) => (.failed (.io w.index e), { w with decoder, incoming })
  | (.nothing, decoder, incoming) => (.never, { w with decoder, incoming })
termination_by unreadOf w.decoder w.incoming
decreasing_by exact unreadOf_lt_of_receive _h

def awaitResult (bounded : Bool) (w : ProcessWorker χ) (s : σ) : Reply × ProcessWorker χ × σ :=
  match w.state with
  | .running _ =>
    let (reply, w) := w.awaitStatus bounded
    (reply, w, s)
  | _ => (w.refuse "report a result", w, s)

def drain (w : ProcessWorker χ) : Reply × ProcessWorker χ :=
  let failure := w.incoming.findSome? fun
    | .failure e => some e
    | _ => none
  let w := { w with incoming := [], decoder := .withLimit lineLimit }
  match failure with
  | some e => (.failed (.io w.index e), w)
  | none => (if w.ended then .done else .never, w)

def waitExit (w : ProcessWorker χ) : Reply × ProcessWorker χ :=
  match Child.wait w.child with
  | (.error e, child) => (.failed (.io w.index e), { w with child })
  | (.ok none, child) => (.never, { w with child })
  | (.ok (some status), child) =>
    (if status.isSuccess then .done else .failed (.exitStatus w.index status),
      { w with child, state := .terminated })

/-- Says `done`, closes the child's input, and waits for the end of its output and its exit. -/
def terminate (w : ProcessWorker χ) (s : σ) : Reply × ProcessWorker χ × σ :=
  match w.state with
  | .terminated => (.done, w, s)
  | .running _ => (w.refuse "shut down gracefully", w, s)
  | .idle =>
    match w.send .done s with
    | (.done, w, s) =>
      let (reaction, child, s) := Child.takeEnd w.child s
      match ({ w with inputOpen := false }.react child reaction).drain with
      | (.done, w) =>
        let (reply, w) := w.waitExit
        (reply, w, s)
      | (reply, w) => (reply, w, s)
    | failed => failed

/-- Stops a child that has not exited by itself. -/
def stopChild (child : χ) : Except IoError (Option ExitStatus) × χ :=
  match Child.poll child with
  | (.ok none, child) => Child.stop child
  | polled => polled

/-- Closes the child's input and stops it. The input stays closed if that fails. -/
def kill (w : ProcessWorker χ) (s : σ) : Reply × ProcessWorker χ × σ :=
  if w.state = .terminated then (.done, w, s)
  else
    match stopChild w.child with
    | (.error e, child) => (.failed (.io w.index e), { w with inputOpen := false, child }, s)
    | (.ok none, child) => (.never, { w with inputOpen := false, child }, s)
    | (.ok (some _), child) =>
      (.done, { w with inputOpen := false, child, state := .terminated }, s)

theorem kill_cases (w : ProcessWorker χ) (s : σ) :
    (w.state = .terminated ∧ w.kill s = (.done, w, s)) ∨
    (w.state ≠ .terminated ∧ ∃ child,
      w.kill s = (.done, { w with inputOpen := false, child, state := .terminated }, s) ∨
      (∃ e, w.kill s = (.failed (.io w.index e), { w with inputOpen := false, child }, s)) ∨
      w.kill s = (.never, { w with inputOpen := false, child }, s)) := by
  by_cases hstate : w.state = .terminated
  · exact Or.inl ⟨hstate, by rw [kill, if_pos hstate]⟩
  · refine Or.inr ⟨hstate, (stopChild w.child).2, ?_⟩
    rw [kill, if_neg hstate]
    rcases stopChild w.child with ⟨e | _ | status, child⟩
    · exact Or.inr (Or.inl ⟨e, rfl⟩)
    · exact Or.inr (Or.inr rfl)
    · exact Or.inl rfl

theorem kill_shared (w : ProcessWorker χ) (s : σ) : (w.kill s).2.2 = s := by
  rcases w.kill_cases s with ⟨-, hkill⟩ | ⟨-, child, hkill | ⟨e, hkill⟩ | hkill⟩
  all_goals rw [hkill]

/-- Where every child can be stopped, every worker can be killed. -/
theorem kill_of_stopChild
    (h : ∀ child : χ, ∃ status left, stopChild child = (.ok (some status), left))
    (w : ProcessWorker χ) (s : σ) : ∃ w', w.kill s = (.done, w', s) := by
  obtain ⟨status, left, hstop⟩ := h w.child
  by_cases hstate : w.state = .terminated
  · exact ⟨w, by rw [kill, if_pos hstate]⟩
  · exact ⟨{ w with inputOpen := false, child := left, state := .terminated },
      by rw [kill, if_neg hstate, hstop]⟩

instance : Worker (ProcessWorker χ) σ where
  index := ProcessWorker.index
  state := ProcessWorker.state
  dispatch := dispatch
  awaitResult := awaitResult
  terminate := terminate
  kill := kill

end ProcessWorker

end MapReduce
