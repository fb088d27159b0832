import MapReduce.Proofs.Awaiting
import MapReduce.Proofs.Command
import MapReduce.Worker.LiveChild

/-!
# Answers on the wire

A worker answers the command line of a task with one line, and the reader of that line, which may
have been cut at a limit, hears whether the task went well and the message if it did not. The beat of
a worker never reads as an answer.
-/

namespace MapReduce

def TaskError.account (kind : TaskKind) (e : TaskError) : String :=
  match e.fault? with
  | none => e.message
  | some fault => s!"{kind.name} task panicked: task N panicked with message {Text.quote fault.message.toList}"

theorem TaskError.status_eq (kind : TaskKind) (e : TaskError) :
    e.status kind = .failure (e.account kind) := by
  unfold status account
  cases e.fault? <;> rfl

/-- A wait that ended with the outcome of a task. -/
def Reply.isReport : Reply → Bool
  | .done | .failed (.reported ..) => true
  | _ => false

namespace Status

def ofResult (kind : TaskKind) : Except TaskError Nat → Status
  | .ok _ => .ok
  | .error e => e.status kind

theorem notMem_oneLine (message : String) {c : Char} (hc : c = '\r' ∨ c = '\n') :
    c ∉ (oneLine message).toList := by
  rw [oneLine, String.toList_ofList, List.mem_map]
  rintro ⟨c', -, h⟩
  split at h
  · rcases hc with rfl | rfl <;> exact absurd h (by decide)
  · next hc' => exact hc' (h ▸ hc)

theorem newline_notMem_line (kind : TaskKind) (result : Except TaskError Nat) :
    Bytes.newline ∉ Bytes.ofString (ofResult kind result).line := by
  rw [Bytes.ofString, Bytes.newline_mem_encode_iff]
  cases result with
  | ok n =>
      rw [ofResult]
      decide
  | error e =>
      rw [ofResult, TaskError.status_eq, failure, line, String.toList_append, List.mem_append, not_or]
      exact ⟨by decide, notMem_oneLine _ (Or.inr rfl)⟩

/-! ### Reading an answer -/

def errorWordLength : Nat := 7

theorem ofString_failure_line (message : String) :
    Bytes.ofString (failure message).line
      = Bytes.ofString "error: " ++ Bytes.ofString (oneLine message) := by
  rw [failure, line, Bytes.ofString, String.toList_append, Utf8.encode_append]
  rfl

theorem parse_ok : parse (Bytes.ofString Status.ok.line).show = .ok := by
  rw [Bytes.show_ofString]
  decide

theorem decodeLossy_encode_append (cs : List Char) (bs : Bytes) :
    Utf8.decodeLossy (Utf8.encode cs ++ bs) = cs ++ Utf8.decodeLossy bs := by
  induction cs with
  | nil => rfl
  | cons c cs ih =>
      rw [Utf8.encode_cons, List.append_assoc, List.cons_append, ← ih, Utf8.decodeLossy, Utf8.pieces,
        Utf8.scan_encodeChar, Utf8.scan_append]
      rfl

theorem parse_error_append (bs : Bytes) :
    parse (Bytes.ofString "error: " ++ bs).show = .error bs.show := by
  rw [Bytes.ofString, Bytes.show, decodeLossy_encode_append, parse, String.toList_ofList]
  rfl

/-- A message that was cut at a limit is heard up to there. -/
theorem parse_take_failure (message : String) {limit : Nat} (hlimit : errorWordLength ≤ limit) :
    parse (Bytes.show ((Bytes.ofString (failure message).line).take limit))
      = .error (Bytes.show ((Bytes.ofString (oneLine message)).take (limit - errorWordLength))) := by
  have hword : (Bytes.ofString "error: ").length = errorWordLength := by decide
  rw [ofString_failure_line, List.take_append, List.take_of_length_le (by omega), hword,
    parse_error_append]

theorem parse_heartbeat : parse (Bytes.ofString Heartbeat.line).show = .diagnostic Heartbeat.line := by
  rw [Bytes.show_ofString]
  rfl

end Status

/-! ### One command -/

namespace TaskRunner

variable {task : Task}

theorem decodeLine_command (hinput : Command.isSendable task.input = true)
    (houtput : Command.isSendable task.output = true) :
    decodeLine ⟨Bytes.ofString (Command.line (.run task)), true⟩
      = .ok (Command.line (.run task)) := by
  have hreturn : Bytes.carriageReturn ∉ Bytes.ofString (Command.line (.run task)) := by
    rw [Bytes.ofString, Bytes.carriageReturn_mem_encode_iff]
    exact Command.notMem_line hinput houtput (Or.inr rfl)
  have hcontent : Line.withoutReturn Bytes.carriageReturn
      ⟨Bytes.ofString (Command.line (.run task)), true⟩
        = Bytes.ofString (Command.line (.run task)) := by
    rw [Line.withoutReturn, if_neg]
    intro h
    simp only [Bool.true_and, beq_iff_eq] at h
    exact hreturn (List.mem_of_getLast? h)
  rw [decodeLine, hcontent, Bytes.ofString, Utf8.decode_encode]
  simp [Except.map]

theorem answer_line (runner : TaskRunner) (hinput : Command.isSendable task.input = true)
    (houtput : Command.isSendable task.output = true) (t : FileTree) :
    runner.answer (Command.line (.run task)) t
      = (some (.ofResult task.kind (runner.run task t).1), (runner.run task t).2) := by
  rw [answer, Command.parse_line hinput houtput]
  dsimp only
  rcases runner.run task t with ⟨_ | _, _⟩ <;> rfl

def heard (status : Status) : Sink :=
  { Sink.unbounded with taken := [LiveChild.statusLine status] }

@[simp]
theorem contents_heard (status : Status) : (heard status).contents = LiveChild.statusLine status := by
  simp [heard, Sink.contents]

theorem serve_line (runner : TaskRunner) (hinput : Command.isSendable task.input = true)
    (houtput : Command.isSendable task.output = true) (t : FileTree) :
    runner.serve (Bytes.ofString (Command.line (.run task))).terminate .unbounded t
      = (.ok (), heard (.ofResult task.kind (runner.run task t).1), (runner.run task t).2) := by
  have hnewline : Bytes.newline ∉ Bytes.ofString (Command.line (.run task)) := by
    rw [Bytes.ofString, Bytes.newline_mem_encode_iff]
    exact Command.notMem_line hinput houtput (Or.inl rfl)
  rw [serve, Bytes.terminate, Line.split_append_newline hnewline, Line.split_nil, serveLines,
    decodeLine_command hinput houtput]
  dsimp only
  rw [answer_line runner hinput houtput]
  rfl

/-! ### What the coordinator is told -/

open ProcessWorker (IsRemark lineLimit reading replyOf)

def report (index : Nat) (kind : TaskKind) : Except TaskError Nat → Reply
  | .ok _ => .done
  | .error e => .failed (.reported index (Bytes.show
      ((Bytes.ofString (Status.oneLine (e.account kind))).take
        (lineLimit - Status.errorWordLength))))

/-- What the coordinator is told of a task that finds these files. -/
def outcome (runner : TaskRunner) (index : Nat) (task : Task) (t : FileTree) : Reply :=
  report index task.kind (runner.run task t).1

def answerLine (runner : TaskRunner) (task : Task) (t : FileTree) : Bytes :=
  Bytes.ofString (Status.ofResult task.kind (runner.run task t).1).line

theorem isReport_report (index : Nat) (kind : TaskKind) (result : Except TaskError Nat) :
    (report index kind result).isReport = true := by
  cases result <;> rfl

/-- An answer reads as the outcome it was written for. -/
theorem replyOf_reading (index : Nat) (kind : TaskKind) (result : Except TaskError Nat) :
    replyOf index (reading lineLimit (Bytes.ofString (Status.ofResult kind result).line))
      = report index kind result := by
  cases result with
  | ok n =>
      rw [reading, Status.ofResult, List.take_of_length_le (by decide), Status.parse_ok]
      rfl
  | error e =>
      rw [reading, Status.ofResult, TaskError.status_eq, Status.parse_take_failure _ (by decide)]
      rfl

theorem not_isRemark_answer (kind : TaskKind) (result : Except TaskError Nat) :
    ¬ IsRemark lineLimit (Bytes.ofString (Status.ofResult kind result).line) := by
  rintro ⟨text, h⟩
  have hreply := replyOf_reading 0 kind result
  rw [h] at hreply
  have hreport := isReport_report 0 kind result
  rw [← hreply] at hreport
  simp [replyOf, Reply.isReport] at hreport

end TaskRunner

end MapReduce
