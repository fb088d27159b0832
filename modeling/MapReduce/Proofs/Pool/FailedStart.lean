import MapReduce.Proofs.Pool.Opening

/-!
# A pool that cannot be opened

Workers are started one after the other, and each start sees what the ones before it left. The first
one that fails ends the starting: the workers before it are asked to exit, and killed if one of them
did not, and it is the error of the start that is handed on, whatever that came to.
-/

namespace MapReduce

theorem Attempted.step_mem {plan : List (Nat × WorkerCall)} {entries : List CallEntry}
    (h : Attempted plan entries) : ∀ e ∈ entries, e.step ∈ plan := by
  induction h with
  | finished => simp
  | stuck => simp [CallEntry.step]
  | @next k call reply plan entries _ _ ih =>
      intro e he
      rcases List.mem_cons.mp he with rfl | he
      · exact List.mem_cons_self
      · exact List.mem_cons_of_mem _ (ih e he)

namespace Pool

variable {ω σ : Type}

/-- `Started start s workers s'`: the first starts gave these workers, in this order, and took the
environment from `s` to `s'`. -/
inductive Started (start : Nat → σ → Except WorkerError ω × σ) (s : σ) : List ω → σ → Prop where
  | nobody : Started start s [] s
  | next {workers : List ω} {w : ω} {s' s'' : σ} (before : Started start s workers s')
      (hstart : start workers.length s' = (.ok w, s'')) : Started start s (workers ++ [w]) s''

section

variable {start start' : Nat → σ → Except WorkerError ω × σ} {s s' : σ} {workers : List ω}

/-- Only the starts that were made have a say in what was started. -/
theorem Started.congr (h : Started start s workers s')
    (hsame : ∀ i < workers.length, start' i = start i) : Started start' s workers s' := by
  induction h with
  | nobody => exact .nobody
  | @next workers w s' s'' _ hstart ih =>
      rw [List.length_append, List.length_singleton] at hsame
      refine .next (ih fun i hi => hsame i (by omega)) ?_
      rw [hsame workers.length (by omega), hstart]

theorem Started.watched (h : Started start s workers s') (log : List CallEntry) :
    Started (Watched.start start) (s, log) (Watched.line 0 workers) (s', log) := by
  induction h with
  | nobody => exact .nobody
  | @next workers w s' s'' _ hstart ih =>
      rw [Watched.line_concat, Nat.zero_add]
      refine .next ih ?_
      rw [Watched.length_line, Watched.start, hstart]
      rfl

/-- All of the first `n` workers start, or one of them is the first that does not. -/
theorem started_or_failed (start : Nat → σ → Except WorkerError ω × σ) (s : σ) (n : Nat) :
    (∃ workers s', Started start s workers s' ∧ workers.length = n)
      ∨ ∃ workers s' e s'', Started start s workers s' ∧ workers.length < n
          ∧ start workers.length s' = (.error e, s'') := by
  induction n with
  | zero => exact Or.inl ⟨[], s, .nobody, rfl⟩
  | succ n ih =>
      rcases ih with ⟨workers, s', hstarted, hlength⟩
        | ⟨workers, s', e, s'', hstarted, hlength, hfails⟩
      · rcases hnext : start workers.length s' with ⟨e | w, s''⟩
        · exact Or.inr ⟨workers, s', e, s'', hstarted, by omega, hnext⟩
        · exact Or.inl ⟨workers ++ [w], s'', hstarted.next hnext, by simp [hlength]⟩
      · exact Or.inr ⟨workers, s', e, s'', hstarted, by omega, hfails⟩

end

/-! ### What opening does with them -/

section

variable [Worker ω σ] {start start' : Nat → σ → Except WorkerError ω × σ} {s s' : σ}
  {workers : List ω} {n : Nat}

theorem startAll_of_started (h : Started start s workers s') (remaining : Nat) :
    startAll start [] 0 s (workers.length + remaining)
      = startAll start workers.reverse workers.length s' remaining := by
  induction h generalizing remaining with
  | nobody => simp
  | @next workers w s' s'' _ hstart ih =>
      have hsum : (workers ++ [w]).length + remaining = workers.length + (remaining + 1) := by
        rw [List.length_append, List.length_singleton, Nat.add_assoc, Nat.add_comm 1]
      rw [hsum, ih, startAll, hstart, List.reverse_append, List.length_append]
      rfl

theorem openWith_of_started (h : Started start s workers s') (hn : 0 < n)
    (hlength : workers.length = n) : openWith n start s = (.ok (ofWorkers workers), s') := by
  have hall := startAll_of_started h 0
  rw [Nat.add_zero, hlength, startAll, List.reverse_reverse] at hall
  rw [openWith, if_neg (Nat.ne_of_gt hn), hall]

theorem openWith_of_failed {e : WorkerError} {s'' : σ} (h : Started start s workers s')
    (hlength : workers.length < n) (hfails : start workers.length s' = (.error e, s'')) :
    openWith n start s = (startFailure e ((ofWorkers workers).close s'').1,
      ((ofWorkers workers).close s'').2.2) := by
  obtain ⟨remaining, rfl⟩ : ∃ remaining, n = workers.length + (remaining + 1) :=
    ⟨n - workers.length - 1, by omega⟩
  rw [openWith, if_neg (by omega), startAll_of_started h, startAll_of_error hfails,
    List.reverse_reverse]

/-- What comes after the start that failed is not asked for. -/
theorem openWith_congr {e : WorkerError} {s'' : σ} (h : Started start s workers s')
    (hlength : workers.length < n) (hfails : start workers.length s' = (.error e, s''))
    (hsame : ∀ i ≤ workers.length, start' i = start i) :
    openWith n start' s = openWith n start s := by
  have hfails' : start' workers.length s' = (.error e, s'') := by
    rw [hsame workers.length (Nat.le_refl _), hfails]
  have h' : Started start' s workers s' := h.congr fun i hi => hsame i (Nat.le_of_lt hi)
  rw [openWith_of_failed h hlength hfails, openWith_of_failed h' hlength hfails']

end

/-! ### The workers before the start that failed -/

theorem startFailure_of_returned {e : WorkerError} {closing : PoolReply Unit}
    (h : closing ≠ .abandoned) : startFailure (ω := ω) e closing = .failed (.worker e) := by
  cases closing with
  | abandoned => exact absurd rfl h
  | ok _ => rfl
  | failed _ => rfl

/-- `CleanedUp k entries`: the calls of `entries` are how the `k` workers before a start that failed
were stopped. -/
structure CleanedUp (k : Nat) (entries : List CallEntry) : Prop where
  /-- Each worker is asked to exit in its turn, whatever came of those before it, and if one of them
  failed to then all are killed in the same order. -/
  attempted : Attempted
    (terminatePlan k ++ if failures .terminate entries = [] then [] else killPlan k) entries
  /-- When every call has returned, none is left out and none is made twice. -/
  steps : (∀ c ∈ entries, c.reply ≠ .never) → entries.map CallEntry.step
    = terminatePlan k ++ if failures .terminate entries = [] then [] else killPlan k
  /-- No worker gets a task, and nobody waits for a result. -/
  untasked : ∀ c ∈ entries, c.position < k ∧ (c.call = .terminate ∨ c.call = .kill)

theorem Closed.cleanedUp [Worker ω σ] {workers : List ω} {reply : PoolReply Unit}
    {entries : List CallEntry} (h : Closed (ofWorkers workers) reply entries) :
    CleanedUp workers.length entries := by
  have hattempted : Attempted (terminatePlan workers.length
      ++ if failures .terminate entries = [] then [] else killPlan workers.length) entries := by
    simpa [closePlan, PoolState.shutdown, ofWorkers] using h.attempted
  refine ⟨hattempted, hattempted.steps_eq, fun c hc => ?_⟩
  have hstep := hattempted.step_mem c hc
  rw [List.mem_append] at hstep
  rcases hstep with hasked | hkilled
  · obtain ⟨i, hi, hstep⟩ := List.mem_map.mp hasked
    obtain ⟨hposition, hcall⟩ := Prod.mk.inj hstep
    exact ⟨hposition ▸ List.mem_range.mp hi, Or.inl hcall.symm⟩
  · split at hkilled
    · simp at hkilled
    · obtain ⟨i, hi, hstep⟩ := List.mem_map.mp hkilled
      obtain ⟨hposition, hcall⟩ := Prod.mk.inj hstep
      exact ⟨hposition ▸ List.mem_range.mp hi, Or.inr hcall.symm⟩

/-- `Opens n start s`: how a pool of `n` workers is opened. Beside the plain pool stands the same pool
with its workers watched, so that the calls made to them show. -/
inductive Opens [Worker ω σ] (n : Nat) (start : Nat → σ → Except WorkerError ω × σ) (s : σ) :
    Prop where
  /-- A pool of nobody is refused before anything is started. -/
  | empty (hn : n = 0) (hplain : openWith n start s = (.failed .empty, s))
      (hopen : openWith n (Watched.start start) (s, []) = (.failed .empty, (s, [])))
  /-- Everyone started: the pool holds them in order, idle, and none has been called. -/
  | opened {workers : List ω} {s' : σ} (hn : 0 < n) (hstarted : Started start s workers s')
      (hlength : workers.length = n) (hplain : openWith n start s = (.ok ⟨workers, .idle, none⟩, s'))
      (hopen : openWith n (Watched.start start) (s, [])
        = (.ok ⟨Watched.line 0 workers, .idle, none⟩, (s', [])))
  /-- A start failed, and the workers before it have been stopped: its error is the result. -/
  | failed {workers : List ω} {s' s'' left : σ} {e : WorkerError} {entries : List CallEntry}
      (hstarted : Started start s workers s') (hlength : workers.length < n)
      (hfails : start workers.length s' = (.error e, s''))
      (hbeyond : ∀ start', (∀ i ≤ workers.length, start' i = start i) →
        openWith n start' s = openWith n start s)
      (hcleaned : CleanedUp workers.length entries) (hreturned : ∀ c ∈ entries, c.reply ≠ .never)
      (hplain : openWith n start s = (.failed (.worker e), left))
      (hopen : openWith n (Watched.start start) (s, []) = (.failed (.worker e), (left, entries)))
  /-- A start failed, and one of the workers before it never returns from being stopped. -/
  | stuck {workers : List ω} {s' s'' left : σ} {e : WorkerError} {entries : List CallEntry}
      (hstarted : Started start s workers s') (hlength : workers.length < n)
      (hfails : start workers.length s' = (.error e, s''))
      (hbeyond : ∀ start', (∀ i ≤ workers.length, start' i = start i) →
        openWith n start' s = openWith n start s)
      (hcleaned : CleanedUp workers.length entries) (hnever : ∃ c ∈ entries, c.reply = .never)
      (hplain : openWith n start s = (.abandoned, left))
      (hopen : openWith n (Watched.start start) (s, []) = (.abandoned, (left, entries)))

/-- **A failed start cleans up.** However many workers a pool is to have, whatever starts them and
however they answer when they are stopped: a pool of nobody is refused and nothing is started.
Otherwise either all workers start and the pool is idle with all of them in order, or one start is
the first that fails. Then no later one is made, every worker before it is asked to exit once, in
order, and, if one of them failed to, every one of them is also killed once, in order; no worker gets
any other call, and the error of the start is the result. -/
theorem openWith_cleans_up [Worker ω σ] (n : Nat) (start : Nat → σ → Except WorkerError ω × σ)
    (s : σ) : Opens n start s := by
  obtain rfl | hn := Nat.eq_zero_or_pos n
  · exact .empty rfl rfl rfl
  rcases started_or_failed start s n with ⟨workers, s', hstarted, hlength⟩
    | ⟨workers, s', e, s'', hstarted, hlength, hfails⟩
  · have hwatched : (Watched.line 0 workers).length = n := by rw [Watched.length_line, hlength]
    exact .opened hn hstarted hlength (openWith_of_started hstarted hn hlength)
      (openWith_of_started (hstarted.watched []) hn hwatched)
  · have hbeyond : ∀ start', (∀ i ≤ workers.length, start' i = start i) →
        openWith n start' s = openWith n start s :=
      fun start' hsame => openWith_congr hstarted hlength hfails hsame
    have hfails' : Watched.start start (Watched.line 0 workers).length (s', [])
        = (.error e, (s'', [])) := by
      rw [Watched.length_line, Watched.start, hfails]
      rfl
    have hplain := openWith_of_failed hstarted hlength hfails
    have hopen := openWith_of_failed (hstarted.watched []) (by simpa using hlength) hfails'
    -- The watched workers are closed as those inside them are.
    have hsame : ofWorkers (Watched.line 0 workers) = (ofWorkers workers).watched := rfl
    obtain ⟨entries, hclose, hclosing⟩ := close_watch (ofWorkers workers) s'' []
    have hclosed := hclosing.closed
    have hcleaned := hclosed.cleanedUp
    rw [hsame, hclose, List.nil_append] at hopen
    by_cases hnever : ∃ c ∈ entries, c.reply = .never
    · rw [hclosed.abandoned.mpr hnever] at hplain hopen
      exact .stuck hstarted hlength hfails hbeyond hcleaned hnever hplain hopen
    · have hreturned : ∀ c ∈ entries, c.reply ≠ .never :=
        fun c hc hreply => hnever ⟨c, hc, hreply⟩
      have hclosed' : ((ofWorkers workers).close s'').1 ≠ .abandoned :=
        fun habandoned => hnever (hclosed.abandoned.mp habandoned)
      rw [startFailure_of_returned hclosed'] at hplain hopen
      exact .failed hstarted hlength hfails hbeyond hcleaned hreturned hplain hopen

/-- The third worker does not start, and the second does not exit when it is asked to. -/
example : (openWith 4 (fun i log =>
      if i = 2 then (.error (.unexpectedExit 2), log)
      else if i = 1 then (.ok ⟨1, .idle, [], [], [.failed (.unexpectedExit 1)], []⟩, log)
      else (.ok (⟨i, .idle, [], [], [], []⟩ : ScriptedWorker), log)) []).2
    = [.kill 1, .kill 0, .terminate 1, .terminate 0] := rfl

end Pool

end MapReduce
