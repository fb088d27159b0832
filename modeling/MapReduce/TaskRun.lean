import MapReduce.Task
import MapReduce.TaskRun.Reduce

/-!
What a worker does with a command line.
-/
namespace MapReduce

structure TaskRunner where
  workload : Workload
  aux : Bytes

namespace TaskRunner

def run (runner : TaskRunner) (task : Task) (t : FileTree) : Except TaskError Nat × FileTree :=
  match task.kind with
  | .map => MapTask.run runner.workload.map runner.aux task.input task.output t
  | .reduce => ReduceTask.run runner.workload.reduce runner.aux task.input task.output t

end TaskRunner

end MapReduce
