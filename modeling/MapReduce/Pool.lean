import MapReduce.Outcome
import MapReduce.Worker

/-!
A pool drives its workers through phases in lockstep: every worker gets its task before any result
is awaited, and the first failure ends the phase and all later ones.
-/
namespace MapReduce

inductive PoolState where
  | idle
  | phaseInFlight (kind : TaskKind)
  | failed
  deriving DecidableEq, Repr

inductive Shutdown where
  | graceful
  | kill
  deriving DecidableEq, Repr

namespace PoolState

def text : PoolState → String
  | .idle => "idle"
  | .phaseInFlight kind => s!"running a {kind.name} phase"
  | .failed => "failed"

/-- Workers that may be mid-task are not asked. -/
def shutdown : PoolState → Shutdown
  | .idle => .graceful
  | .phaseInFlight _ | .failed => .kill

end PoolState

inductive PoolError where
  | empty
  | lengthMismatch (expected inputs outputs : Nat)
  | unavailable (state : PoolState)
  | worker (e : WorkerError)
  | shutdown (errors : List WorkerError)
  deriving DecidableEq, Repr

namespace PoolError

def message : PoolError → String
  | .empty => "a worker pool needs at least one worker"
  | .lengthMismatch expected inputs outputs =>
    s!"expected {expected} input and output files, got {inputs} inputs and {outputs} outputs"
  | .unavailable state => s!"worker pool is {state.text} and cannot start a phase"
  | .worker e => e.message
  | .shutdown errors =>
    let list := "; ".intercalate (errors.map WorkerError.message)
    s!"{errors.length} worker(s) failed to shut down: {list}"

def causes : PoolError → List String
  | .worker e => e.causes
  | _ => []

end PoolError

abbrev PoolReply (α : Type) := Outcome PoolError α

structure Pool (ω : Type) where
  workers : List ω
  state : PoolState
  taskTimeout : Option Duration

namespace Pool

variable {ω σ : Type} [Worker ω σ]

def ofWorkers (workers : List ω) : Pool ω :=
  ⟨workers, .idle, none⟩

def withTaskTimeout (p : Pool ω) (limit : Option Duration) : Pool ω :=
  { p with taskTimeout := limit }

/-- Hands tasks to workers in order, up to the first call that does not succeed. -/
def dispatchAll (kind : TaskKind) : List ω → List (Path × Path) → σ → Reply × List ω × σ
  | w :: ws, (input, output) :: files, s =>
    match Worker.dispatch ⟨kind, input, output⟩ w s with
    | (.done, w, s) =>
      let (reply, ws, s) := dispatchAll kind ws files s
      (reply, w :: ws, s)
    | (reply, w, s) => (reply, w :: ws, s)
  | ws, _, s => (.done, ws, s)

def awaitWithin (limit : Option Duration) (w : ω) (s : σ) : Reply × ω × σ :=
  match limit with
  | none => Worker.awaitResult false w s
  | some limit =>
    match Worker.awaitResult true w s with
    | (.never, w, s) => (.failed (.timeout (Worker.index w) limit), w, s)
    | answered => answered

def awaitAll (limit : Option Duration) : List ω → σ → Reply × List ω × σ
  | [], s => (.done, [], s)
  | w :: ws, s =>
    match awaitWithin limit w s with
    | (.done, w, s) =>
      let (reply, ws, s) := awaitAll limit ws s
      (reply, w :: ws, s)
    | (reply, w, s) => (reply, w :: ws, s)

def settle (p : Pool ω) (kind : TaskKind) (reply : Reply) (workers : List ω) :
    PoolReply Unit × Pool ω :=
  match reply with
  | .done => (.ok (), { p with workers, state := .idle })
  | .failed e => (.failed (.worker e), { p with workers, state := .failed })
  | .never => (.abandoned, { p with workers, state := .phaseInFlight kind })

/-- Runs task `i` on worker `i` and waits for all of them. -/
def runPhase (p : Pool ω) (kind : TaskKind) (inputs outputs : List Path) (s : σ) :
    PoolReply Unit × Pool ω × σ :=
  let expected := p.workers.length
  if inputs.length ≠ expected ∨ outputs.length ≠ expected then
    (.failed (.lengthMismatch expected inputs.length outputs.length), p, s)
  else if p.state ≠ .idle then (.failed (.unavailable p.state), p, s)
  else
    match dispatchAll kind p.workers (inputs.zip outputs) s with
    | (.done, workers, s) =>
      let (reply, workers, s) := awaitAll p.taskTimeout workers s
      let (result, p) := p.settle kind reply workers
      (result, p, s)
    | (reply, workers, s) =>
      let (result, p) := p.settle kind reply workers
      (result, p, s)

/-- Makes one call to each worker in order and collects the errors. Nothing if a call never
returns. -/
def callAll (call : ω → σ → Reply × ω × σ) : List ω → σ → Option (List WorkerError) × List ω × σ
  | [], s => (some [], [], s)
  | w :: ws, s =>
    match call w s with
    | (.never, w, s) => (none, w :: ws, s)
    | (reply, w, s) =>
      let (errors, ws, s) := callAll call ws s
      match reply with
      | .failed e => (errors.map (e :: ·), w :: ws, s)
      | _ => (errors, w :: ws, s)

/-- Kills every worker; `before` are errors met earlier. -/
def killAll (before : List WorkerError) (workers : List ω) (s : σ) : PoolReply Unit × List ω × σ :=
  match callAll Worker.kill workers s with
  | (none, workers, s) => (.abandoned, workers, s)
  | (some errors, workers, s) =>
    if (before ++ errors).isEmpty then (.ok (), workers, s)
    else (.failed (.shutdown (before ++ errors)), workers, s)

/-- Stops every worker. An idle pool asks them to exit, and kills them all if one refuses. The
workers are those that the pool leaves behind. -/
def close (p : Pool ω) (s : σ) : PoolReply Unit × List ω × σ :=
  match p.state.shutdown with
  | .kill => killAll [] p.workers s
  | .graceful =>
    match callAll Worker.terminate p.workers s with
    | (none, workers, s) => (.abandoned, workers, s)
    | (some [], workers, s) => (.ok (), workers, s)
    | (some errors, workers, s) => killAll errors workers s

/-- Starts the workers numbered from `index` on, `remaining` of them; `started` are those before,
the last one first. If one fails to start, those before are closed. -/
def startAll (start : Nat → σ → Except WorkerError ω × σ) (started : List ω) (index : Nat)
    (s : σ) : Nat → PoolReply (Pool ω) × σ
  | 0 => (.ok (ofWorkers started.reverse), s)
  | remaining + 1 =>
    match start index s with
    | (.ok w, s) => startAll start (w :: started) (index + 1) s remaining
    | (.error e, s) =>
      match (ofWorkers started.reverse).close s with
      | (.abandoned, _, s) => (.abandoned, s)
      | (_, _, s) => (.failed (.worker e), s)

def openWith (n : Nat) (start : Nat → σ → Except WorkerError ω × σ) (s : σ) :
    PoolReply (Pool ω) × σ :=
  if n = 0 then (.failed .empty, s) else startAll start [] 0 s n

end Pool

end MapReduce
