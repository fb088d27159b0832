import MapReduce.Proofs.Job.Refusals
import MapReduce.Proofs.Pool.Opening

/-!
# Watching a job

A job does the same whether or not the calls to its workers are put down, provided that the workers
know their positions: one that is too slow is named by its position when it is watched.
-/

namespace MapReduce

variable {ω σ : Type}

instance [HasFiles σ] : HasFiles (σ × List CallEntry) where
  files s := HasFiles.files s.1
  setFiles t s := (HasFiles.setFiles t s.1, s.2)

namespace Pool

variable [Worker ω σ] {start : Nat → σ → Except WorkerError ω × σ}

end Pool

namespace Job

variable [Worker ω σ] [HasFiles σ] {start : Nat → σ → Except WorkerError ω × σ} {workers : List ω}
  {n : Nat}

end Job

/-! ### Processes -/

namespace ProcessWorker

variable {χ : Type}

variable [Child χ σ]

end ProcessWorker

end MapReduce
