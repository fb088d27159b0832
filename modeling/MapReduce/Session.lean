import MapReduce.Duration
import MapReduce.Status
import MapReduce.TaskRun

/-!
A worker's session: it answers command lines until it is told that it is done, and in between
shows that it is alive.
-/
namespace MapReduce

/-- The answer to a failed task. A fault is told apart from an orderly failure. -/
def TaskError.status (kind : TaskKind) (e : TaskError) : Status :=
  match e.fault? with
  | none => .failure e.message
  | some fault =>
    .failure s!"{kind.name} task panicked: task N panicked with message {Text.quote fault.message.toList}"

namespace TaskRunner

/-- Carries out a command line. There is no answer to the command that ends the session. -/
def answer (runner : TaskRunner) (line : String) (t : FileTree) : Option Status × FileTree :=
  match Command.parse line with
  | .error e => (some (.failure e.message), t)
  | .ok .done => (none, t)
  | .ok (.run task) =>
    match runner.run task t with
    | (.ok _, t) => (some .ok, t)
    | (.error e, t) => (some (e.status task.kind), t)

end TaskRunner

inductive SessionError where
  | notUtf8 (fault : Utf8.Fault)
  | write (e : IoError)
  deriving DecidableEq, Repr

def SessionError.message : SessionError → String
  | .notUtf8 fault => fault.message
  | .write e => e.message

/-- Writes a line and its newline as one piece, and flushes. -/
def Sink.writeLine (out : Sink) (line : String) : Except IoError Unit × Sink :=
  match out.write (Bytes.ofString line).terminate with
  | (.ok _, out) => (out.flush, out)
  | failed => failed

/-- A command line as text. The line end is taken off before the bytes are decoded. -/
def decodeLine (line : Line UInt8) : Except Utf8.Fault String :=
  (Utf8.decode (line.withoutReturn Bytes.carriageReturn)).map String.ofList

namespace TaskRunner

/-- Answers lines in order, each before the next is read. -/
def serveLines (runner : TaskRunner) (out : Sink) (t : FileTree) :
    List (Line UInt8) → Except SessionError Unit × Sink × FileTree
  | [] => (.ok (), out, t)
  | line :: rest =>
    match decodeLine line with
    | .error fault => (.error (.notUtf8 fault), out, t)
    | .ok text =>
      match runner.answer text t with
      | (none, t) => (.ok (), out, t)
      | (some status, t) =>
        match out.writeLine status.line with
        | (.error e, out) => (.error (.write e), out, t)
        | (.ok _, out) => runner.serveLines out t rest

def serve (runner : TaskRunner) (input : Bytes) (out : Sink) (t : FileTree) :
    Except SessionError Unit × Sink × FileTree :=
  runner.serveLines out t (Line.split Bytes.newline input)

end TaskRunner

namespace Heartbeat

def line : String := "heartbeat"

/-- Writes at most `n` beats; whether a write failed, which ends them. -/
def beats (out : Sink) : Nat → Bool × Sink
  | 0 => (false, out)
  | n + 1 =>
    match out.writeLine line with
    | (.ok _, out) => beats out n
    | (.error _, out) => (true, out)

def run (period span : Duration) (out : Sink) : Except Fault (Bool × Sink) :=
  if period = 0 then .error .zeroPeriod else .ok (beats out (span / period))

end Heartbeat

end MapReduce
