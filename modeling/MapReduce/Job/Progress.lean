import MapReduce.Duration
import MapReduce.Job.Report

/-!
The states a job goes through, and the time it spends in each.
-/
namespace MapReduce

structure JobProgress where
  state : JobState
  /-- What the clock showed when the state was entered. -/
  entered : Duration
  timings : List StateTiming
  deriving DecidableEq, Repr

namespace JobProgress

/-- A job that has not begun. `clock` is what the clock shows when a state is entered. -/
def pending (clock : JobState → Duration) : JobProgress where
  state := .pending
  entered := clock .pending
  timings := []

def timing (p : JobProgress) (now : Duration) : StateTiming where
  state := p.state
  elapsed := (now - p.entered).toMillis

/-- Leaves the state for the next. The time before the first is not recorded. -/
def advance (clock : JobState → Duration) (next : JobState) (p : JobProgress) : JobProgress :=
  let now := clock next
  let timings := if p.state ≠ .pending then p.timings ++ [p.timing now] else p.timings
  { state := next, entered := now, timings }

end JobProgress

end MapReduce
