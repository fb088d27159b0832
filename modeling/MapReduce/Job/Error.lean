import MapReduce.Pool
import MapReduce.Shuffle

/-!
A failed job: the phase that failed, and why.
-/
namespace MapReduce

inductive Phase where
  | setup
  | sharding
  | startup
  | map
  | shuffle
  | reduce
  | combine
  | shutdown
  deriving DecidableEq, Repr

def Phase.name : Phase → String
  | .setup => "setup"
  | .sharding => "sharding"
  | .startup => "worker startup"
  | .map => "map"
  | .shuffle => "shuffle"
  | .reduce => "reduce"
  | .combine => "combine"
  | .shutdown => "worker shutdown"

def Phase.hasWorkers : Phase → Bool
  | .setup | .sharding | .startup => false
  | .map | .shuffle | .reduce | .combine | .shutdown => true

inductive PhaseError where
  | io (e : IoError)
  | shuffle (e : ShuffleError)
  | pool (e : PoolError)
  deriving DecidableEq, Repr

namespace PhaseError

def message : PhaseError → String
  | .io e => e.message
  | .shuffle e => e.message
  | .pool e => e.message

def causes : PhaseError → List String
  | .io _ => []
  | .shuffle e => e.causes
  | .pool e => e.causes

end PhaseError

structure JobError where
  phase : Phase
  source : PhaseError
  deriving DecidableEq, Repr

namespace JobError

def message (e : JobError) : String :=
  s!"{e.phase.name} failed: {e.source.message}"

def causes (e : JobError) : List String :=
  e.source.message :: e.source.causes

end JobError

end MapReduce
