import MapReduce.Duration
import MapReduce.Path

/-!
What a job is told before it runs.
-/
namespace MapReduce

inductive ConfigError where
  | noWorkers
  deriving DecidableEq, Repr

def ConfigError.message : ConfigError → String
  | .noWorkers => "a job needs at least one worker"

structure JobConfig where
  workers : Nat
  workers_pos : 0 < workers
  program : Path
  arguments : List Bytes
  input : Path
  output : Path
  /-- How long to wait for each task, if not forever. -/
  taskTimeout : Option Duration
  /-- Where intermediate files are kept, if they are. -/
  workdir : Option Path

namespace JobConfig

def create (program : Path) (workers : Nat) (input output : Path) : Except ConfigError JobConfig :=
  if h : 0 < workers then .ok ⟨workers, h, program, [], input, output, none, none⟩
  else .error .noWorkers

def withArguments (c : JobConfig) (arguments : List Bytes) : JobConfig :=
  { c with arguments := c.arguments ++ arguments }

def withTaskTimeout (c : JobConfig) (limit : Option Duration) : JobConfig :=
  { c with taskTimeout := limit }

def withWorkdir (c : JobConfig) (workdir : Option Path) : JobConfig :=
  { c with workdir }

end JobConfig

end MapReduce
