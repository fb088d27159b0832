import MapReduce.Pool.Scripted
import MapReduce.Proofs.Pool.Attempts
import MapReduce.Worker.Process

/-!
# Nobody is left behind unreported

Closing a pool makes the calls of its plan: an idle pool asks every worker to exit and, if one of
them did not, kills them all; any other pool kills them all at once. No error keeps the next worker
from being attempted, all errors are handed on, and a worker that is still there afterwards is named
by one of them.
-/

namespace MapReduce.Pool

variable {ω σ : Type}

def terminatePlan (n : Nat) : List (Nat × WorkerCall) :=
  (List.range n).map fun i => (i, .terminate)

/-- The calls that close a pool of `n` workers, given the errors that asking them to exit met. -/
def closePlan (n : Nat) (refusals : List WorkerError) : Shutdown → List (Nat × WorkerCall)
  | .kill => killPlan n
  | .graceful => terminatePlan n ++ if refusals.isEmpty then [] else killPlan n

/-- The errors of the calls of one kind, in the order of the calls. -/
def failures (c : WorkerCall) (entries : List CallEntry) : List WorkerError :=
  (entries.filter fun e => e.call = c).flatMap fun e => e.reply.errors

def verdict (errors : List WorkerError) : PoolReply Unit :=
  if errors.isEmpty then .ok () else .failed (.shutdown errors)

theorem verdict_ne_abandoned (errors : List WorkerError) : verdict errors ≠ .abandoned := by
  unfold verdict
  split <;> simp

theorem verdict_eq_ok_iff {errors : List WorkerError} : verdict errors = .ok () ↔ errors = [] := by
  unfold verdict
  split <;> simp_all

theorem eq_of_verdict_eq_shutdown {errors errors' : List WorkerError}
    (h : verdict errors = .failed (.shutdown errors')) : errors = errors' := by
  unfold verdict at h
  split at h <;> simp_all

theorem failures_append (c : WorkerCall) (entries entries' : List CallEntry) :
    failures c (entries ++ entries') = failures c entries ++ failures c entries' := by
  simp [failures]

namespace Asked

variable {call : ω → σ → Reply × ω × σ} {c c' : WorkerCall} {k : Nat} {workers after : List ω}
  {entries : List CallEntry} {errors : Option (List WorkerError)}

theorem failures_self (h : Asked call c k workers entries errors after) :
    failures c entries = entries.flatMap fun e => e.reply.errors := by
  rw [failures, List.filter_eq_self.mpr fun e he => by simpa using h.call_eq e he]

theorem failures_of_ne (h : Asked call c k workers entries errors after) (hne : c ≠ c') :
    failures c' entries = [] := by
  have hnone : entries.filter (fun e => e.call = c') = [] := by
    rw [List.filter_eq_nil_iff]
    intro e he
    simpa [h.call_eq e he] using hne
  rw [failures, hnone]
  rfl

theorem errors_eq_failures (h : Asked call c k workers entries errors after)
    (hreturned : ∀ e ∈ entries, e.reply ≠ .never) : errors = some (failures c entries) := by
  rw [h.errors_eq hreturned, h.failures_self]

/-- Errors are given back when every call has returned. -/
theorem returned {es : List WorkerError} (h : Asked call c k workers entries (some es) after) :
    (∀ e ∈ entries, e.reply ≠ .never) ∧ failures c entries = es := by
  have hreturned : ∀ e ∈ entries, e.reply ≠ .never :=
    fun e he hnever => Option.some_ne_none es (h.errors_eq_none ⟨e, he, hnever⟩)
  exact ⟨hreturned, (Option.some.inj (h.errors_eq_failures hreturned)).symm⟩

theorem exists_never (h : Asked call c k workers entries none after) :
    ∃ e ∈ entries, e.reply = .never := by
  refine Classical.byContradiction fun hnone => ?_
  have hreturned : ∀ e ∈ entries, e.reply ≠ .never := fun e he hnever => hnone ⟨e, he, hnever⟩
  exact Option.some_ne_none _ (h.errors_eq_failures hreturned).symm

theorem attempted_range (h : Asked call c 0 workers entries errors after) :
    Attempted ((List.range workers.length).map fun i => (i, c)) entries := by
  rw [List.range_eq_range']
  exact h.attempted

end Asked

/-! ### What closing replies -/

def replyTo (before : List WorkerError) : Option (List WorkerError) → PoolReply Unit
  | none => .abandoned
  | some errors => verdict (before ++ errors)

variable [Worker ω σ]

theorem killAll_eq (before : List WorkerError) (workers : List ω) (s : σ) :
    killAll before workers s
      = (replyTo before (callAll Worker.kill workers s).1, (callAll Worker.kill workers s).2) := by
  rw [killAll]
  rcases callAll Worker.kill workers s with ⟨_ | errors, workers', s'⟩
  · rfl
  · simp only [replyTo, verdict]
    split <;> rfl

/-- A call that stops workers: one that goes well leaves the worker terminated. -/
def Stops (call : ω → σ → Reply × ω × σ) : Prop :=
  ∀ w s, (call w s).1 = .done → Worker.state (call w s).2.1 = .terminated

theorem Asked.terminated_or_failed {call : ω → σ → Reply × ω × σ} {c : WorkerCall} {k : Nat}
    {workers after : List ω} {entries : List CallEntry} {errors : Option (List WorkerError)}
    (h : Asked call c k workers entries errors after) (hcall : Stops call)
    (hreturned : ∀ e ∈ entries, e.reply ≠ .never) {i : Nat} {w : ω} (hw : after[i]? = some w) :
    Worker.state w = .terminated ∨ ∃ e, (⟨k + i, c, .failed e⟩ : CallEntry) ∈ entries := by
  induction h generalizing i with
  | finished => simp at hw
  | stuck => exact absurd rfl (hreturned _ (List.mem_singleton_self _))
  | @next k w' ws after s entries errors hreply _ ih =>
      cases i with
      | zero =>
          obtain rfl := Option.some.inj hw
          cases hended : (call w' s).1 with
          | done => exact Or.inl (hcall w' s hended)
          | failed e => exact Or.inr ⟨e, by simp⟩
          | never => exact absurd hended hreply
      | succ i =>
          have hrest := ih (fun e he => hreturned e (List.mem_cons_of_mem _ he)) hw
          rw [Nat.add_assoc k 1 i, Nat.add_comm 1 i] at hrest
          exact hrest.imp_right fun ⟨e, he⟩ => ⟨e, List.mem_cons_of_mem _ he⟩

theorem Asked.terminated_of_failures {call : ω → σ → Reply × ω × σ} {c : WorkerCall} {k : Nat}
    {workers after : List ω} {entries : List CallEntry} {errors : Option (List WorkerError)}
    (h : Asked call c k workers entries errors after) (hcall : Stops call)
    (hreturned : ∀ e ∈ entries, e.reply ≠ .never) (hnone : failures c entries = []) :
    ∀ w ∈ after, Worker.state w = .terminated := by
  intro w hw
  obtain ⟨i, hi⟩ := List.mem_iff_getElem?.mp hw
  rcases h.terminated_or_failed hcall hreturned hi with hstate | ⟨e, he⟩
  · exact hstate
  · rw [h.failures_self, List.flatMap_eq_nil_iff] at hnone
    exact absurd (hnone _ he) (by simp [Reply.errors])

/-! ### What closing has done -/

/-- The course of closing a pool: the calls that it made, its reply, and the workers left. -/
inductive Closing (p : Pool ω) : List CallEntry → PoolReply Unit → List ω → Prop where
  | kills {entries : List CallEntry} {errors : Option (List WorkerError)} {after : List ω}
      (hshutdown : p.state.shutdown = .kill)
      (hkills : Asked Worker.kill .kill 0 p.workers entries errors after) :
      Closing p entries (replyTo [] errors) after
  /-- An idle pool was left waiting for a worker to exit. -/
  | stuck {entries : List CallEntry} {after : List ω} (hshutdown : p.state.shutdown = .graceful)
      (hasked : Asked Worker.terminate .terminate 0 p.workers entries none after) :
      Closing p entries .abandoned after
  | exits {entries : List CallEntry} {after : List ω} (hshutdown : p.state.shutdown = .graceful)
      (hasked : Asked Worker.terminate .terminate 0 p.workers entries (some []) after) :
      Closing p entries (.ok ()) after
  /-- One of the workers of an idle pool did not exit. -/
  | refused {asked killed : List CallEntry} {e : WorkerError} {more : List WorkerError}
      {errors : Option (List WorkerError)} {workers after : List ω}
      (hshutdown : p.state.shutdown = .graceful)
      (hasked : Asked Worker.terminate .terminate 0 p.workers asked (some (e :: more)) workers)
      (hkills : Asked Worker.kill .kill 0 workers killed errors after) :
      Closing p (asked ++ killed) (replyTo (e :: more) errors) after

/-- A pool whose workers are watched is closed as it would be without. -/
theorem close_watch (p : Pool ω) (s : σ) (log : List CallEntry) :
    ∃ entries, p.watched.close (s, log)
        = ((p.close s).1, Watched.line 0 (p.close s).2.1, ((p.close s).2.2, log ++ entries))
      ∧ Closing p entries (p.close s).1 (p.close s).2.1 := by
  have hkills : ∀ (workers : List ω) (s : σ) (log : List CallEntry), ∃ entries,
      callAll Worker.kill (Watched.line 0 workers) (s, log) = _ ∧ Asked Worker.kill .kill 0 workers
        entries (callAll Worker.kill workers s).1 (callAll Worker.kill workers s).2.1 :=
    fun workers s log => callAll_watch .kill Worker.kill workers 0 s log
  cases hshutdown : p.state.shutdown with
  | kill =>
      obtain ⟨entries, hwatched, hasked⟩ := hkills p.workers s log
      refine ⟨entries, ?_, ?_⟩
      · simp only [close, watched, hshutdown, killAll_eq, hwatched]
      · simp only [close, hshutdown, killAll_eq]
        exact .kills hshutdown hasked
  | graceful =>
      obtain ⟨asked, hwatched, hasked⟩ :=
        callAll_watch .terminate Worker.terminate p.workers 0 s log
      have hexits : callAll Worker.terminate (Watched.line 0 p.workers) (s, log) = _ := hwatched
      rcases hcalls : callAll Worker.terminate p.workers s with ⟨errors, workers, s'⟩
      rw [hcalls] at hexits hasked
      match errors with
      | none =>
          simp only [close, watched, hshutdown, hexits, hcalls]
          exact ⟨asked, rfl, .stuck hshutdown hasked⟩
      | some [] =>
          simp only [close, watched, hshutdown, hexits, hcalls]
          exact ⟨asked, rfl, .exits hshutdown hasked⟩
      | some (e :: more) =>
          obtain ⟨killed, hkilled, hkills⟩ := hkills workers s' (log ++ asked)
          simp only [close, watched, hshutdown, hexits, hcalls, killAll_eq, hkilled]
          exact ⟨asked ++ killed, by rw [List.append_assoc], .refused hshutdown hasked hkills⟩

theorem state_eq_idle {state : PoolState} (h : state.shutdown = .graceful) : state = .idle := by
  cases state with
  | idle => rfl
  | phaseInFlight kind => cases h
  | failed => cases h

/-- What the calls that closed a pool say about its reply. -/
structure Closed (p : Pool ω) (reply : PoolReply Unit) (entries : List CallEntry) : Prop where
  /-- Every worker is attempted in its turn, whatever came of those before it. -/
  attempted : Attempted
    (closePlan p.workers.length (failures .terminate entries) p.state.shutdown) entries
  /-- Closing returns unless one of the calls does not. -/
  abandoned : reply = .abandoned ↔ ∃ e ∈ entries, e.reply = .never
  /-- Once it returns, every call of the plan was made once. -/
  steps : reply ≠ .abandoned → entries.map CallEntry.step
    = closePlan p.workers.length (failures .terminate entries) p.state.shutdown
  unasked : p.state ≠ .idle → failures .terminate entries = []
  reply_eq : reply ≠ .abandoned →
    reply = verdict (failures .terminate entries ++ failures .kill entries)

section

variable {p : Pool ω}

/-- Killing every worker, when the calls before had all returned. -/
theorem Closed.of_kills {before entries : List CallEntry} {errors : Option (List WorkerError)}
    {workers after : List ω} (hreturned : ∀ e ∈ before, e.reply ≠ .never)
    (hplan : closePlan p.workers.length (failures .terminate before) p.state.shutdown
      = before.map CallEntry.step ++ killPlan workers.length)
    (hunasked : p.state ≠ .idle → failures .terminate before = [])
    (hunkilled : failures .kill before = [])
    (hkills : Asked (Worker.kill : ω → σ → _) .kill 0 workers entries errors after) :
    Closed p (replyTo (failures .terminate before) errors) (before ++ entries) := by
  have hterminate : failures .terminate (before ++ entries) = failures .terminate before := by
    rw [failures_append, hkills.failures_of_ne (by simp), List.append_nil]
  have hkilled : failures .kill (before ++ entries) = failures .kill entries := by
    rw [failures_append, hunkilled, List.nil_append]
  have hattempted : Attempted
      (closePlan p.workers.length (failures .terminate (before ++ entries)) p.state.shutdown)
      (before ++ entries) := by
    rw [hterminate, hplan]
    exact (Attempted.of_returned hreturned).append hreturned hkills.attempted_range
  cases errors with
  | none =>
      obtain ⟨e, he, hnever⟩ := hkills.exists_never
      have hnever' : ∃ e ∈ before ++ entries, e.reply = .never :=
        ⟨e, List.mem_append_right _ he, hnever⟩
      exact ⟨hattempted, by simpa [replyTo] using hnever', by simp [replyTo],
        hterminate ▸ hunasked, by simp [replyTo]⟩
  | some errors =>
      obtain ⟨hreturned', rfl⟩ := hkills.returned
      have hall : ∀ e ∈ before ++ entries, e.reply ≠ .never :=
        List.forall_mem_append.mpr ⟨hreturned, hreturned'⟩
      have hreply : replyTo (failures .terminate before) (some (failures .kill entries))
          ≠ .abandoned := verdict_ne_abandoned _
      refine ⟨hattempted, ?_, fun _ => hattempted.steps_eq hall, hterminate ▸ hunasked, ?_⟩
      · simpa [hreply] using hall
      · intro _
        rw [hterminate, hkilled, replyTo]

theorem Closing.closed {entries : List CallEntry} {reply : PoolReply Unit} {after : List ω}
    (h : Closing p entries reply after) : Closed p reply entries := by
  cases h with
  | kills hshutdown hkills =>
      have hplan : closePlan p.workers.length (failures .terminate []) p.state.shutdown
          = ([] : List CallEntry).map CallEntry.step ++ killPlan p.workers.length := by
        rw [hshutdown]
        rfl
      exact .of_kills (by simp) hplan (by simp [failures]) rfl hkills
  | stuck hshutdown hasked =>
      have hnever := hasked.exists_never
      refine ⟨?_, by simpa using hnever, by simp, fun h => absurd (state_eq_idle hshutdown) h,
        by simp⟩
      rw [hshutdown]
      exact Attempted.append_of_never hasked.attempted_range hnever
  | exits hshutdown hasked =>
      obtain ⟨hreturned, hnone⟩ := hasked.returned
      have hplan : closePlan p.workers.length (failures .terminate entries) p.state.shutdown
          = terminatePlan p.workers.length := by
        rw [hshutdown, hnone]
        exact List.append_nil _
      refine ⟨?_, by simpa using hreturned, fun _ => ?_, fun _ => hnone, fun _ => ?_⟩
      · rw [hplan]
        exact hasked.attempted_range
      · rw [hplan]
        exact hasked.attempted_range.steps_eq hreturned
      · rw [hnone, hasked.failures_of_ne (by simp)]
        rfl
  | refused hshutdown hasked hkills =>
      obtain ⟨hreturned, hrefusals⟩ := hasked.returned
      rw [← hrefusals]
      refine .of_kills hreturned ?_ (fun h => absurd (state_eq_idle hshutdown) h)
        (hasked.failures_of_ne (by simp)) hkills
      rw [hshutdown, hrefusals, hasked.attempted_range.steps_eq hreturned, hasked.length_eq]
      rfl

/-- What the calls that closed a pool say about its reply and about the workers left. -/
structure Accounted (p : Pool ω) (reply : PoolReply Unit) (after : List ω)
    (entries : List CallEntry) : Prop extends Closed p reply entries where
  length : after.length = p.workers.length
  terminated : reply = .ok () → ∀ w ∈ after, Worker.state w = .terminated
  /-- A worker that is still there is named by the error of its own kill. -/
  unstopped : ∀ errors, reply = .failed (.shutdown errors) → ∀ (i : Nat) (w : ω),
    after[i]? = some w → Worker.state w ≠ .terminated →
      ∃ e ∈ errors, (⟨i, .kill, .failed e⟩ : CallEntry) ∈ entries

/-- What killing every worker has come to, with the errors met before. -/
theorem accounted_of_kills {before : List WorkerError} {entries : List CallEntry}
    {errors : Option (List WorkerError)} {workers after : List ω}
    (hkill : Stops (Worker.kill : ω → σ → Reply × ω × σ))
    (hkills : Asked (Worker.kill : ω → σ → _) .kill 0 workers entries errors after) :
    (replyTo before errors = .ok () → ∀ w ∈ after, Worker.state w = .terminated)
      ∧ ∀ es, replyTo before errors = .failed (.shutdown es) → ∀ (i : Nat) (w : ω),
          after[i]? = some w → Worker.state w ≠ .terminated →
            ∃ e ∈ es, (⟨i, .kill, .failed e⟩ : CallEntry) ∈ entries := by
  cases errors with
  | none => exact ⟨by simp [replyTo], by simp [replyTo]⟩
  | some errors =>
      obtain ⟨hreturned, rfl⟩ := hkills.returned
      constructor
      · intro hok
        have hnone := List.append_eq_nil_iff.mp (verdict_eq_ok_iff.mp hok)
        exact hkills.terminated_of_failures hkill hreturned hnone.2
      · intro es hes i w hw hstate
        obtain rfl := eq_of_verdict_eq_shutdown hes
        rcases hkills.terminated_or_failed hkill hreturned hw with hterminated | ⟨e, he⟩
        · exact absurd hterminated hstate
        · rw [Nat.zero_add] at he
          refine ⟨e, List.mem_append_right _ ?_, he⟩
          rw [hkills.failures_self]
          exact List.mem_flatMap.mpr ⟨_, he, List.mem_singleton_self e⟩

theorem Closing.accounted {entries : List CallEntry} {reply : PoolReply Unit} {after : List ω}
    (h : Closing p entries reply after)
    (hterminate : Stops (Worker.terminate : ω → σ → Reply × ω × σ))
    (hkill : Stops (Worker.kill : ω → σ → Reply × ω × σ)) : Accounted p reply after entries := by
  have hclosed := h.closed
  cases h with
  | kills hshutdown hkills =>
      obtain ⟨hterminated, hunstopped⟩ := accounted_of_kills hkill hkills
      exact ⟨hclosed, hkills.length_eq, hterminated, hunstopped⟩
  | stuck hshutdown hasked => exact ⟨hclosed, hasked.length_eq, by simp, by simp⟩
  | exits hshutdown hasked =>
      obtain ⟨hreturned, hnone⟩ := hasked.returned
      refine ⟨hclosed, hasked.length_eq, fun _ => ?_, by simp⟩
      exact hasked.terminated_of_failures hterminate hreturned hnone
  | refused hshutdown hasked hkills =>
      obtain ⟨hterminated, hunstopped⟩ := accounted_of_kills hkill hkills
      refine ⟨hclosed, hkills.length_eq.trans hasked.length_eq, hterminated, ?_⟩
      intro es hes i w hw hstate
      obtain ⟨e, he, hentry⟩ := hunstopped es hes i w hw hstate
      exact ⟨e, he, List.mem_append_right _ hentry⟩

end

/-- **Closing.** Closing a pool attempts every worker, even when earlier ones fail: an idle pool asks
them all to exit and then, if one of them failed to, kills every worker once; any other pool only
kills. The reply gathers all errors in the order of the calls. If there are none, every worker is
terminated, and otherwise one that is not has the error of its own kill among them. -/
theorem close_accounted (hterminate : Stops (Worker.terminate : ω → σ → Reply × ω × σ))
    (hkill : Stops (Worker.kill : ω → σ → Reply × ω × σ)) (p : Pool ω) (s : σ) :
    ∃ entries, p.watched.close (s, [])
        = ((p.close s).1, Watched.line 0 (p.close s).2.1, ((p.close s).2.2, entries))
      ∧ Accounted p (p.close s).1 (p.close s).2.1 entries := by
  obtain ⟨entries, hclose, hclosing⟩ := close_watch p s []
  exact ⟨entries, hclose, hclosing.accounted hterminate hkill⟩

/-- One worker exits when it is asked to, and the other neither exits nor can be killed. -/
def stubborn : Pool ScriptedWorker :=
  ofWorkers [⟨0, .idle, [], [], [], []⟩,
    ⟨1, .idle, [], [], [.failed (.unexpectedExit 1)], [.failed (.io 1 .accessDenied)]⟩]

theorem close_accounted_stubborn :
    ∃ entries, stubborn.watched.close ([], [])
        = ((stubborn.close []).1, Watched.line 0 (stubborn.close []).2.1,
          ((stubborn.close []).2.2, entries))
      ∧ (stubborn.close []).1 = .failed (.shutdown [.unexpectedExit 1, .io 1 .accessDenied])
      ∧ Accounted stubborn (stubborn.close []).1 (stubborn.close []).2.1 entries := by
  have hterminate : Stops (Worker.terminate : ScriptedWorker → CallLog → _) := by
    intro w s hdone
    exact if_pos hdone
  have hkill : Stops (Worker.kill : ScriptedWorker → CallLog → _) := by
    intro w s hdone
    exact if_pos hdone
  obtain ⟨entries, hclose, haccounted⟩ := close_accounted hterminate hkill stubborn []
  exact ⟨entries, hclose, rfl, haccounted⟩

end MapReduce.Pool

namespace MapReduce.ProcessWorker

variable {χ σ : Type} [Child χ σ]

theorem state_waitExit {w : ProcessWorker χ} (h : w.waitExit.1 = .done) :
    w.waitExit.2.state = .terminated := by
  unfold waitExit at h ⊢
  generalize Child.wait w.child = waited at h ⊢
  rcases waited with ⟨e | _ | status, child⟩
  · cases h
  · cases h
  · rfl

/-- A worker that is idle and does what it is asked to has exited. -/
theorem terminate_idle {w : ProcessWorker χ} {s : σ} (hidle : w.state = .idle)
    (hdone : (w.terminate s).1 = .done) : ∃ left : ProcessWorker χ,
      left.waitExit.1 = .done ∧ (w.terminate s).2.1 = left.waitExit.2 := by
  unfold terminate at hdone ⊢
  rcases hsent : w.send .done s with ⟨reply, w₁, s₁⟩
  simp only [hidle, hsent] at hdone ⊢
  cases reply with
  | failed e => simp at hdone
  | never => simp at hdone
  | done =>
      rcases htaken : Child.takeEnd w₁.child s₁ with ⟨reaction, child, s₂⟩
      simp only [htaken] at hdone ⊢
      rcases hdrained : ({ w₁ with inputOpen := false }.react child reaction).drain
        with ⟨reply, left⟩
      simp only [hdrained] at hdone ⊢
      cases reply with
      | failed e => simp at hdone
      | never => simp at hdone
      | done => exact ⟨left, hdone, rfl⟩

theorem stops_terminate : Pool.Stops (Worker.terminate : ProcessWorker χ → σ → _) := by
  intro w s hdone
  change (w.terminate s).1 = .done at hdone
  change (w.terminate s).2.1.state = .terminated
  cases hstate : w.state with
  | idle =>
      obtain ⟨left, hexit, hleft⟩ := terminate_idle hstate hdone
      rw [hleft]
      exact state_waitExit hexit
  | running kind => simp [terminate, hstate, refuse] at hdone
  | terminated => simp [terminate, hstate]

theorem stops_kill : Pool.Stops (Worker.kill : ProcessWorker χ → σ → _) := by
  intro w s hdone
  change (w.kill s).1 = .done at hdone
  change (w.kill s).2.1.state = .terminated
  rcases w.kill_cases s with ⟨hgone, hkill⟩ | ⟨-, child, hkill | ⟨e, hkill⟩ | hkill⟩
  · rw [hkill]
    exact hgone
  · rw [hkill]
  · rw [hkill] at hdone
    cases hdone
  · rw [hkill] at hdone
    cases hdone

/-- A pool of worker processes is closed with every process accounted for, whatever its children do
and wherever waiting for one or stopping it fails. -/
theorem pool_close_accounted (p : Pool (ProcessWorker χ)) (s : σ) :
    ∃ entries, p.watched.close (s, [])
        = ((p.close s).1, Watched.line 0 (p.close s).2.1, ((p.close s).2.2, entries))
      ∧ Pool.Accounted p (p.close s).1 (p.close s).2.1 entries := by
  obtain ⟨entries, hclose, hclosing⟩ := Pool.close_watch p s []
  exact ⟨entries, hclose, hclosing.accounted stops_terminate stops_kill⟩

end MapReduce.ProcessWorker
