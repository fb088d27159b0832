import MapReduce.Text.Blank
import MapReduce.Workload

/-!
Counting words: each distinct word of a shard is mapped to its count there, and a reducer adds up
the counts of one word.
-/
namespace MapReduce.WordCount

/-- The counts so far, which are in the order of their words, and one word more. -/
def countWord (word : Bytes) : List (Bytes × Nat) → List (Bytes × Nat)
  | [] => [(word, 1)]
  | entry :: rest =>
    if entry.1 = word then (word, entry.2 + 1) :: rest
    else if Bytes.le word entry.1 then (word, 1) :: entry :: rest
    else entry :: countWord word rest

/-- The distinct words in ascending order, each with how often it occurs. -/
def tally (words : List Bytes) : List (Bytes × Nat) :=
  words.foldl (fun counts word => countWord word counts) []

def map : MapFunction := fun input _ => do
  let text ← Workload.decodeText input.value
  return (tally ((Text.words text).map Utf8.encode)).map fun entry =>
    .ok ⟨entry.1, Workload.encodeCount entry.2⟩

def reduce : ReduceFunction := fun key values _ => do
  return Workload.countLine key (← Workload.sumCounts 0 values)

def workload : Workload := ⟨map, reduce⟩

end MapReduce.WordCount
