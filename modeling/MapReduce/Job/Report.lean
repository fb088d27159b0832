/-!
What a finished job did, and its JSON text.
-/
namespace MapReduce

inductive JobState where
  | pending
  | sharding
  | mapping
  | shuffling
  | reducing
  | combining
  | completed
  deriving DecidableEq, Repr

def JobState.name : JobState → String
  | .pending => "pending"
  | .sharding => "sharding"
  | .mapping => "mapping"
  | .shuffling => "shuffling"
  | .reducing => "reducing"
  | .combining => "combining"
  | .completed => "completed"

structure StateTiming where
  state : JobState
  elapsed : Nat
  deriving DecidableEq, Repr

structure JobReport where
  workers : Nat
  inputLines : Nat
  shardLines : List Nat
  shuffledRecords : Nat
  partitionRecords : List Nat
  outputBytes : Nat
  timings : List StateTiming
  deriving DecidableEq, Repr

namespace JobReport

def total (counts : List Nat) : Nat :=
  counts.foldl (· + ·) 0

def withComma : List String → List String
  | [] => []
  | [line] => [line ++ ","]
  | line :: rest => line :: withComma rest

/-- Items of one or more lines each, with a comma after all but the last. -/
def commaParted : List (List String) → List String
  | [] => []
  | [item] => item
  | item :: rest => withComma item ++ commaParted rest

def block (opening closing : String) (items : List (List String)) : List String :=
  if items.isEmpty then [opening ++ closing]
  else opening :: (commaParted items).map ("  " ++ ·) ++ [closing]

/-- A named value; the name stands before the first line. -/
def field (name : String) : List String → List String
  | [] => []
  | line :: rest => s!"\"{name}\": {line}" :: rest

def countLines (n : Nat) : List String := [s!"{n}"]

def timingLines (timing : StateTiming) : List String :=
  block "\x7b" "\x7d"
    [field "state" [s!"\"{timing.state.name}\""], field "elapsed_ms" (countLines timing.elapsed)]

/-- The report as a JSON text, one value on each line. -/
def json (r : JobReport) : String :=
  "\n".intercalate <| block "\x7b" "\x7d"
    [field "workers" (countLines r.workers),
     field "input_lines" (countLines r.inputLines),
     field "shard_lines" (block "[" "]" (r.shardLines.map countLines)),
     field "shuffled_records" (countLines r.shuffledRecords),
     field "partition_records" (block "[" "]" (r.partitionRecords.map countLines)),
     field "output_bytes" (countLines r.outputBytes),
     field "timings" (block "[" "]" (r.timings.map timingLines))]

end JobReport

end MapReduce
