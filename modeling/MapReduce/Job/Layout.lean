import MapReduce.Path
import MapReduce.Text.Number
import MapReduce.Text.Utf8

/-!
The intermediate files of a job. File `i` of every kind belongs to worker `i`.
-/
namespace MapReduce

structure JobLayout where
  mapInputs : List Path
  mapOutputs : List Path
  reduceInputs : List Path
  reduceOutputs : List Path
  deriving DecidableEq, Repr

namespace JobLayout

def fileName (stage : String) (i : Nat) : Bytes :=
  Bytes.ofString stage ++ 0x2D :: Utf8.encode (Text.showCount i)

def files (directory : Path) (workers : Nat) (stage : String) : List Path :=
  (List.range workers).map fun i => Path.join directory (fileName stage i)

def within (directory : Path) (workers : Nat) : JobLayout where
  mapInputs := files directory workers "map-input"
  mapOutputs := files directory workers "map-output"
  reduceInputs := files directory workers "reduce-input"
  reduceOutputs := files directory workers "reduce-output"

end JobLayout

end MapReduce
