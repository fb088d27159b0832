import MapReduce.Text.Blank
import MapReduce.Workload

/-!
Degrees in a graph given as one edge on each line: both ends of an edge are mapped to one, and a
reducer adds up.
-/
namespace MapReduce.VertexDegree

/-- The two numbers that a line starts with; the first is judged before the second is looked for. -/
def parseEdge (line : List Char) : Except WorkloadError (Nat × Nat) :=
  match Text.words line with
  | [] => .error .notEdge
  | first :: rest => do
    let a ← (Text.readCount first).mapError .notCount
    match rest with
    | [] => .error .notEdge
    | second :: _ =>
      let b ← (Text.readCount second).mapError .notCount
      return (a, b)

def parseEdges (done : List (Nat × Nat)) : List (List Char) → Except WorkloadError (List (Nat × Nat))
  | [] => .ok done.reverse
  | line :: rest =>
    if line.all Text.isBlank then parseEdges done rest
    else
      match parseEdge line with
      | .ok edge => parseEdges (edge :: done) rest
      | .error e => .error e

def endpoint (vertex : Nat) : Record :=
  ⟨Workload.encodeCount vertex, Workload.encodeCount 1⟩

def map : MapFunction := fun input _ => do
  let text ← Workload.decodeText input.value
  let edges ← parseEdges [] (Text.lines text)
  return edges.flatMap fun edge => [.ok (endpoint edge.1), .ok (endpoint edge.2)]

def reduce : ReduceFunction := fun key values _ => do
  let degree ← Workload.sumCounts 0 values
  let _ ← Workload.decodeText key
  return Workload.countLine key degree

def workload : Workload := ⟨map, reduce⟩

end MapReduce.VertexDegree
