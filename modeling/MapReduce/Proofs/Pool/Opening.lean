import MapReduce.Proofs.Pool.Closing

/-!
# Opening a pool

A pool is opened when all of its workers have been started. If one of them does not start, those
before it are stopped as the workers of an idle pool are.
-/

namespace MapReduce

theorem Watched.line_concat {ω : Type} (k : Nat) (workers : List ω) (w : ω) :
    line k (workers ++ [w]) = line k workers ++ [⟨k + workers.length, w⟩] := by
  simp [line, List.zipIdx_append]

namespace Pool

variable {ω σ : Type}

/-- How many workers are started, of those from `index` on, until one of them does not start. -/
def startedFrom (start : Nat → σ → Except WorkerError ω × σ) (index : Nat) (s : σ) : Nat → Nat
  | 0 => 0
  | remaining + 1 =>
    match start index s with
    | (.ok _, s) => startedFrom start (index + 1) s remaining + 1
    | (.error _, _) => 0

variable [Worker ω σ] {start : Nat → σ → Except WorkerError ω × σ}

/-- What becomes of a start that failed when the workers before it have been closed. -/
def startFailure (e : WorkerError) : PoolReply Unit → PoolReply (Pool ω)
  | .abandoned => .abandoned
  | .ok _ | .failed _ => .failed (.worker e)

theorem startAll_of_error {index : Nat} {e : WorkerError}
    {s' : σ} (h : start index s = (.error e, s')) (started : List ω) (remaining : Nat) :
    startAll start started index s (remaining + 1)
      = (startFailure e ((ofWorkers started.reverse).close s').1,
        ((ofWorkers started.reverse).close s').2.2) := by
  rw [startAll, h]
  dsimp only
  rcases (ofWorkers started.reverse).close s' with ⟨_ | _ | _, _, _⟩ <;> rfl

/-- `Opened n k plain log ended`: the opening of a pool of `n` watched workers, `k` of which were
started, and what it would have been if nobody watched. -/
inductive Opened (n k : Nat) (plain : PoolReply (Pool ω) × σ) (log : List CallEntry) :
    PoolReply (Pool (Watched ω)) × σ × List CallEntry → Prop where
  | opened {workers : List ω} {s : σ} (hplain : plain = (.ok (ofWorkers workers), s))
      (hlength : workers.length = n) (hall : k = n) :
      Opened n k plain log (.ok (ofWorkers (Watched.line 0 workers)), s, log)
  | failed {e : PoolError} {s : σ} {entries : List CallEntry} (hplain : plain = (.failed e, s))
      (hentries : entries.map CallEntry.step
        = closePlan k (failures .terminate entries) .graceful) :
      Opened n k plain log (.failed e, s, log ++ entries)
  | abandoned {s : σ} {log' : List CallEntry} (hplain : plain = (.abandoned, s)) :
      Opened n k plain log (.abandoned, s, log')

theorem startAll_watch (start : Nat → σ → Except WorkerError ω × σ) (remaining : Nat)
    (workers : List ω) (s : σ) (log : List CallEntry) :
    Opened (workers.length + remaining)
      (workers.length + startedFrom start workers.length s remaining)
      (startAll start workers.reverse workers.length s remaining) log
      (startAll (Watched.start start) (Watched.line 0 workers).reverse workers.length (s, log)
        remaining) := by
  induction remaining generalizing workers s with
  | zero =>
      rw [startAll, startAll, List.reverse_reverse, List.reverse_reverse]
      exact .opened rfl rfl rfl
  | succ remaining ih =>
      rcases hone : start workers.length s with ⟨e | w, s'⟩
      · have hstart : Watched.start start workers.length (s, log) = (.error e, (s', log)) := by
          rw [Watched.start, hone]
          rfl
        have hwatched : ofWorkers (Watched.line 0 workers) = (ofWorkers workers).watched := rfl
        obtain ⟨entries, hclose, hclosing⟩ := close_watch (ofWorkers workers) s' log
        have hclosed := hclosing.closed
        rw [startAll_of_error hstart, startAll_of_error hone, List.reverse_reverse,
          List.reverse_reverse, hwatched, hclose, startedFrom, hone]
        cases hreply : ((ofWorkers workers).close s').1 with
        | abandoned => exact .abandoned rfl
        | ok _ => exact .failed rfl (hclosed.steps (by simp [hreply]))
        | failed e' => exact .failed rfl (hclosed.steps (by simp [hreply]))
      · have hstart : Watched.start start workers.length (s, log)
            = (.ok ⟨workers.length, w⟩, (s', log)) := by
          rw [Watched.start, hone]
          rfl
        have hrest := ih (workers ++ [w]) s'
        rw [Watched.line_concat, List.reverse_append, List.reverse_append, List.length_append]
          at hrest
        have hsum : ∀ k, workers.length + (k + 1) = workers.length + 1 + k := fun k => by omega
        rw [startAll, startAll, hstart, startedFrom, hone]
        dsimp only
        rw [hsum remaining, hsum (startedFrom start (workers.length + 1) s' remaining)]
        simpa using hrest

theorem openWith_watch (start : Nat → σ → Except WorkerError ω × σ) (n : Nat) (s : σ)
    (log : List CallEntry) :
    Opened n (startedFrom start 0 s n) (openWith n start s) log
      (openWith n (Watched.start start) (s, log)) := by
  rw [openWith, openWith]
  split
  · next hn =>
      subst hn
      have hnone : Opened (ω := ω) 0 0 (.failed .empty, s) log (.failed .empty, s, log ++ []) :=
        .failed rfl rfl
      rwa [List.append_nil] at hnone
  · have hall := startAll_watch start n [] s log
    simpa using hall

end Pool

end MapReduce
