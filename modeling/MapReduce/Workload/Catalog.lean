import MapReduce.Workload.VertexDegree
import MapReduce.Workload.WordCount

/-!
The workloads that a worker can be told to run.
-/
namespace MapReduce.Workload

def names : List String := ["wc", "vertex-degree"]

def named? : String → Option Workload
  | "wc" => some WordCount.workload
  | "vertex-degree" => some VertexDegree.workload
  | _ => none

end MapReduce.Workload
