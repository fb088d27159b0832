import MapReduce.Pool

/-!
Workers that follow a script, and a log of the calls made to them.
-/
namespace MapReduce

/-- A call that a pool makes to the worker with the given index. -/
inductive Call where
  | dispatch (index : Nat) (task : Task)
  | awaitResult (index : Nat)
  | terminate (index : Nat)
  | kill (index : Nat)
  deriving DecidableEq, Repr

def Call.text : Call → String
  | .dispatch index task =>
    s!"{task.kind.name} {index} {task.input.show} {task.output.show}"
  | .awaitResult index => s!"await {index}"
  | .terminate index => s!"done {index}"
  | .kill index => s!"kill {index}"

/-- Calls in the order they were made, the last one first. -/
abbrev CallLog := List Call

/-- The outcome of each further call of a kind; calls past the end of a list succeed. -/
structure ScriptedWorker where
  index : Nat
  state : WorkerState
  dispatches : List Reply
  awaits : List Reply
  terminations : List Reply
  kills : List Reply
  deriving DecidableEq, Repr

namespace ScriptedWorker

def dispatch (task : Task) (w : ScriptedWorker) (log : CallLog) :
    Reply × ScriptedWorker × CallLog :=
  let reply := w.dispatches.headD .done
  let state := if reply = .done then .running task.kind else w.state
  (reply, { w with state, dispatches := w.dispatches.tail }, .dispatch w.index task :: log)

/-- Any result, good or bad, leaves the worker idle. -/
def awaitResult (_bounded : Bool) (w : ScriptedWorker) (log : CallLog) :
    Reply × ScriptedWorker × CallLog :=
  let reply := w.awaits.headD .done
  let state := if reply = .never then w.state else .idle
  (reply, { w with state, awaits := w.awaits.tail }, .awaitResult w.index :: log)

def terminate (w : ScriptedWorker) (log : CallLog) : Reply × ScriptedWorker × CallLog :=
  let reply := w.terminations.headD .done
  let state := if reply = .done then .terminated else w.state
  (reply, { w with state, terminations := w.terminations.tail }, .terminate w.index :: log)

def kill (w : ScriptedWorker) (log : CallLog) : Reply × ScriptedWorker × CallLog :=
  let reply := w.kills.headD .done
  let state := if reply = .done then .terminated else w.state
  (reply, { w with state, kills := w.kills.tail }, .kill w.index :: log)

instance : Worker ScriptedWorker CallLog where
  index := ScriptedWorker.index
  state := ScriptedWorker.state
  dispatch := dispatch
  awaitResult := awaitResult
  terminate := terminate
  kill := kill

end ScriptedWorker

end MapReduce
