import MapReduce.Worker.Error

/-!
What a pool asks of its workers.
-/
namespace MapReduce

/-- How a call to a worker ends, if it does. -/
inductive Reply where
  | done
  | failed (e : WorkerError)
  /-- The caller waits in vain, or gives the call up. -/
  | never
  deriving DecidableEq, Repr

/-- Something that runs tasks one at a time. `σ` is what all workers share. -/
class Worker (ω : Type) (σ : outParam Type) where
  index : ω → Nat
  state : ω → WorkerState
  dispatch : Task → ω → σ → Reply × ω × σ
  /-- Waits for the result of the outstanding task; `bounded` if the caller has a deadline. -/
  awaitResult : (bounded : Bool) → ω → σ → Reply × ω × σ
  terminate : ω → σ → Reply × ω × σ
  kill : ω → σ → Reply × ω × σ

end MapReduce
