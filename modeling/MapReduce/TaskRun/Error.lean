import MapReduce.IoError
import MapReduce.Workload

/-!
Why a task failed.
-/
namespace MapReduce

inductive TaskError where
  | file (action : String) (path : Path) (e : IoError)
  | write (e : IoError)
  | sortSetup (e : IoError)
  | sortInput (path : Path) (e : IoError)
  | badRecord (path : Path) (e : RecordError)
  | unwritable (e : RecordError)
  | workload (e : WorkloadError)
  deriving DecidableEq, Repr

namespace TaskError

def message : TaskError → String
  | .file action path e => s!"failed to {action} {path.show}: {e.message}"
  | .write e => e.message
  | .sortSetup e =>
    s!"failed to set up sort: temporary directory or file not created: {e.message}"
  | .sortInput path e => s!"failed to sort {path.show}: input data stream error: {e.message}"
  | .badRecord path e => s!"bad record in {path.show}: {e.message}"
  | .unwritable e => e.message
  | .workload e => e.message

/-- The fault that ended the task, if it did not fail in an orderly way. -/
def fault? : TaskError → Option Fault
  | .workload (.fault e) => some e
  | _ => none

end TaskError

end MapReduce
