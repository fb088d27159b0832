import MapReduce.Duration
import MapReduce.IoError
import MapReduce.Task
import MapReduce.Worker.ExitStatus

/-!
The states of a worker and what can go wrong with one.
-/
namespace MapReduce

inductive WorkerState where
  | idle
  | running (kind : TaskKind)
  | terminated
  deriving DecidableEq, Repr

def WorkerState.text : WorkerState → String
  | .idle => "Idle"
  | .running .map => "Running(Map)"
  | .running .reduce => "Running(Reduce)"
  | .terminated => "Terminated"

inductive WorkerError where
  | spawn (index : Nat) (program : String) (source : IoError)
  | protocol (index : Nat) (source : CommandError)
  | send (index : Nat) (command : String) (source : IoError)
  | reported (index : Nat) (message : String)
  | unexpectedExit (index : Nat)
  | timeout (index : Nat) (limit : Duration)
  | exitStatus (index : Nat) (status : ExitStatus)
  | invalidState (index : Nat) (state : WorkerState) (action : String)
  | io (index : Nat) (source : IoError)
  deriving DecidableEq, Repr

namespace WorkerError

def index : WorkerError → Nat
  | .spawn index .. | .protocol index .. | .send index .. | .reported index ..
  | .unexpectedExit index | .timeout index .. | .exitStatus index .. | .invalidState index ..
  | .io index .. => index

def message : WorkerError → String
  | .spawn index program source => s!"failed to start worker {index} ({program}): {source.message}"
  | .protocol index source => s!"worker {index}: {source.message}"
  | .send index command source =>
    s!"failed to send `{command}` to worker {index}: {source.message}"
  | .reported index message => s!"worker {index} reported error: {message}"
  | .unexpectedExit index => s!"worker {index} closed its output before reporting a result"
  | .timeout index limit => s!"worker {index} did not report a result within {limit.text}"
  | .exitStatus index status => s!"worker {index} exited with {status.text}"
  | .invalidState index state action => s!"worker {index} is {state.text} and cannot {action}"
  | .io index source => s!"worker {index}: {source.message}"

def causes : WorkerError → List String
  | .spawn _ _ source | .send _ _ source | .io _ source => [source.message]
  | .protocol _ source => [source.message]
  | _ => []

end WorkerError

end MapReduce
