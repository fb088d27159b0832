import MapReduce.Proofs.Pool.Attempts

/-!
# Phases in lockstep

The calls of a phase follow its plan: every task is handed over, in the order of the workers, before
the first result is awaited, and the results are awaited in that order too. The first call that does
not succeed is the last call of the phase and decides its outcome. A phase that broke leaves the pool
in a state in which no phase starts and in which closing it only kills, so no worker of that pool is
asked anything again.

A caller may also give a pending phase up. One that leaves before the deadline meets none, so a
phase call says whether its caller stays; a call that the caller leaves behind never returns.
-/

namespace MapReduce

def Reply.outcome : Reply → PoolReply Unit
  | .done => .ok ()
  | .failed e => .failed (.worker e)
  | .never => .abandoned

/-- What the end of a call means for its phase. A result that does not come within the limit is the
failure of its worker. -/
def CallEntry.outcome (limit : Option Duration) (e : CallEntry) : PoolReply Unit :=
  match e.reply, e.call, limit with
  | .never, .awaitResult, some limit => .failed (.worker (.timeout e.position limit))
  | reply, _, _ => reply.outcome

/-- `Along limit plan entries reply`: calls were made along a plan up to the first that did not
succeed, and that call, or the end of the plan, decided the reply. -/
inductive Along (limit : Option Duration) :
    List (Nat × WorkerCall) → List CallEntry → PoolReply Unit → Prop where
  | finished : Along limit [] [] (.ok ())
  | broken {k : Nat} {call : WorkerCall} {reply : Reply} {plan : List (Nat × WorkerCall)}
      (hreply : reply ≠ .done) :
      Along limit ((k, call) :: plan) [⟨k, call, reply⟩] (CallEntry.outcome limit ⟨k, call, reply⟩)
  | next {k : Nat} {call : WorkerCall} {plan : List (Nat × WorkerCall)}
      {entries : List CallEntry} {reply : PoolReply Unit} (rest : Along limit plan entries reply) :
      Along limit ((k, call) :: plan) (⟨k, call, .done⟩ :: entries) reply

structure PhaseCall where
  kind : TaskKind
  inputs : List Path
  outputs : List Path
  /-- Whether the caller stays until the deadline of the pool, if it has one. -/
  patient : Bool
  deriving DecidableEq, Repr

namespace PhaseCall

/-- How long each result is waited for before its worker is held to have failed. -/
def limit (call : PhaseCall) (taskTimeout : Option Duration) : Option Duration :=
  if call.patient then taskTimeout else none

/-- Worker `i` is handed input `i` and output `i`; when all have been handed their tasks, the
results are awaited. -/
def plan (call : PhaseCall) : List (Nat × WorkerCall) :=
  ((call.inputs.zip call.outputs).zipIdx.map fun entry =>
    (entry.2, .dispatch ⟨call.kind, entry.1.1, entry.1.2⟩)) ++
  (List.range call.inputs.length).map fun i => (i, .awaitResult)

def Fits (call : PhaseCall) (n : Nat) : Prop :=
  call.inputs.length = n ∧ call.outputs.length = n

variable {ω σ : Type} [Worker ω σ]

def run (call : PhaseCall) (p : Pool ω) (s : σ) : PoolReply Unit × Pool ω × σ :=
  let (reply, after, s) :=
    (p.withTaskTimeout (call.limit p.taskTimeout)).runPhase call.kind call.inputs call.outputs s
  (reply, after.withTaskTimeout p.taskTimeout, s)

end PhaseCall

structure PhaseRecord where
  call : PhaseCall
  reply : PoolReply Unit
  entries : List CallEntry

namespace PhaseRecord

/-- A phase that touched a worker and was not completed. -/
def Broke (r : PhaseRecord) : Prop :=
  r.entries ≠ [] ∧ r.reply ≠ .ok ()

/-- What a pool of `n` workers makes of a phase call, given whether an earlier phase broke. -/
structure Orderly (n : Nat) (taskTimeout : Option Duration) (broken : Prop) (r : PhaseRecord) :
    Prop where
  /-- A call that fits is carried out along its plan. -/
  along : r.call.Fits n → ¬ broken →
    Along (r.call.limit taskTimeout) r.call.plan r.entries r.reply
  /-- After a phase broke, a call that fits is refused. -/
  unavailable : r.call.Fits n → broken →
    r.entries = [] ∧ ∃ state, state ≠ .idle ∧ r.reply = .failed (.unavailable state)
  /-- A call that does not fit is refused at any time. -/
  mismatch : ¬ r.call.Fits n →
    r.entries = [] ∧
      r.reply = .failed (.lengthMismatch n r.call.inputs.length r.call.outputs.length)

end PhaseRecord

/-- What the life of a pool leaves in writing: its phase calls, and the calls that close it. -/
structure SessionRecord where
  phases : List PhaseRecord
  closing : List CallEntry

namespace Pool

variable {ω σ : Type} [Worker ω σ]

def phases (p : Pool (Watched ω)) (s : σ) :
    List PhaseCall → List PhaseRecord × Pool (Watched ω) × σ
  | [] => ([], p, s)
  | call :: rest =>
    let (reply, p, s, entries) := call.run p (s, [])
    let (records, p, s) := phases p s rest
    (⟨call, reply, entries⟩ :: records, p, s)

def session (p : Pool (Watched ω)) (calls : List PhaseCall) (s : σ) : SessionRecord :=
  let (records, p, s) := phases p s calls
  ⟨records, (p.close (s, [])).2.2.2⟩

end Pool

/-! ### Plans -/

theorem Reply.outcome_ne_ok {reply : Reply} (h : reply ≠ .done) : reply.outcome ≠ .ok () := by
  cases reply <;> simp_all [Reply.outcome]

theorem CallEntry.outcome_ne_ok (limit : Option Duration) {e : CallEntry} (h : e.reply ≠ .done) :
    e.outcome limit ≠ .ok () := by
  unfold CallEntry.outcome
  split
  · simp
  · exact Reply.outcome_ne_ok h

namespace Along

variable {limit : Option Duration} {plan plan' : List (Nat × WorkerCall)}
  {entries entries' : List CallEntry} {reply : PoolReply Unit}

theorem append (h : Along limit plan entries (.ok ())) (h' : Along limit plan' entries' reply) :
    Along limit (plan ++ plan') (entries ++ entries') reply := by
  generalize hok : (Outcome.ok () : PoolReply Unit) = first at h
  induction h with
  | finished => exact h'
  | broken hreply => exact absurd hok.symm (CallEntry.outcome_ne_ok limit hreply)
  | next _ ih => exact .next (ih hok)

theorem append_of_ne_ok (h : Along limit plan entries reply) (hreply : reply ≠ .ok ()) :
    Along limit (plan ++ plan') entries reply := by
  induction h with
  | finished => exact absurd rfl hreply
  | broken hbroken => exact .broken hbroken
  | next _ ih => exact .next (ih hreply)

theorem ne_nil_of_ne_ok (h : Along limit plan entries reply) (hreply : reply ≠ .ok ()) :
    entries ≠ [] := by
  cases h with
  | finished => exact absurd rfl hreply
  | broken _ => exact List.cons_ne_nil _ _
  | next _ => exact List.cons_ne_nil _ _

end Along

namespace Pool

variable {ω σ : Type} [Worker ω σ]

theorem dispatchAll_along (limit : Option Duration) (kind : TaskKind) (workers : List ω)
    (files : List (Path × Path)) (k : Nat) (s : σ) (log : List CallEntry)
    (hlength : files.length = workers.length) :
    ∃ (reply : Reply) (after : List ω) (s' : σ) (entries : List CallEntry),
      dispatchAll kind workers files s = (reply, after, s')
        ∧ dispatchAll kind (Watched.line k workers) files (s, log)
          = (reply, Watched.line k after, (s', log ++ entries))
        ∧ after.length = workers.length
        ∧ Along limit ((files.zipIdx k).map fun entry =>
            (entry.2, .dispatch ⟨kind, entry.1.1, entry.1.2⟩)) entries reply.outcome
        ∧ (KeepsIndex ω σ → after.map Worker.index = workers.map Worker.index) := by
  induction workers generalizing files k s log with
  | nil =>
      obtain rfl : files = [] := List.length_eq_zero_iff.mp hlength
      exact ⟨.done, [], s, [], rfl, by simp [dispatchAll], rfl, .finished, fun _ => rfl⟩
  | cons w workers ih =>
      obtain ⟨⟨input, output⟩, files, rfl⟩ := List.exists_cons_of_length_eq_add_one hlength
      have hrest : files.length = workers.length := by simpa using hlength
      let task : Task := ⟨kind, input, output⟩
      rw [Watched.line_cons, dispatchAll, dispatchAll, List.zipIdx_cons, List.map_cons]
      rcases hcall : Worker.dispatch task w s with ⟨reply, w', s'⟩
      have hindex : KeepsIndex ω σ → Worker.index w' = Worker.index w := by
        intro hkeeps
        simpa only [hcall] using hkeeps.dispatch task w s
      have hwatched : Worker.dispatch task (⟨k, w⟩ : Watched ω) (s, log)
          = (reply, ⟨k, w'⟩, (s', log ++ [⟨k, .dispatch task, reply⟩])) := by
        change Watched.record _ _ _ _ = _
        rw [hcall]
        rfl
      rw [hwatched]
      by_cases hdone : reply = .done
      · subst hdone
        obtain ⟨reply, after, s'', entries, hplain, hall, hafter, halong, hindices⟩ :=
          ih files (k + 1) s' (log ++ [⟨k, .dispatch task, .done⟩]) hrest
        refine ⟨reply, w' :: after, s'', ⟨k, .dispatch task, .done⟩ :: entries, ?_, ?_,
          by simp [hafter], .next halong, fun hkeeps => ?_⟩
        · simp [hplain]
        · simp [hall, List.append_assoc]
        · simp [hindex hkeeps, hindices hkeeps]
      · refine ⟨reply, w' :: workers, s', [⟨k, .dispatch task, reply⟩], ?_, ?_, by simp, ?_,
          fun hkeeps => by simp [hindex hkeeps]⟩
        · cases reply <;> simp_all
        · cases reply <;> simp_all
        · have hbroken : Along limit ((k, .dispatch task) :: (files.zipIdx (k + 1)).map fun entry =>
              (entry.2, .dispatch ⟨kind, entry.1.1, entry.1.2⟩)) [⟨k, .dispatch task, reply⟩]
              (CallEntry.outcome limit ⟨k, .dispatch task, reply⟩) := .broken hdone
          cases reply <;> exact hbroken

/-- A worker that is too slow is named by its position when it is watched, and otherwise by its
number. -/
theorem awaitWithin_watched (limit : Option Duration) (k : Nat) (w : ω) (s : σ)
    (log : List CallEntry) :
    ∃ (reply seen : Reply) (w' : ω) (s' : σ),
      awaitWithin limit (⟨k, w⟩ : Watched ω) (s, log)
          = (seen, ⟨k, w'⟩, (s', log ++ [⟨k, .awaitResult, reply⟩]))
        ∧ (seen = .done ↔ reply = .done)
        ∧ seen.outcome = CallEntry.outcome limit ⟨k, .awaitResult, reply⟩
        ∧ (KeepsIndex ω σ → Worker.index w = k →
            awaitWithin limit w s = (seen, w', s') ∧ Worker.index w' = k) := by
  have hwatched : ∀ bounded : Bool, Worker.awaitResult bounded (⟨k, w⟩ : Watched ω) (s, log)
      = Watched.record ⟨k, w⟩ .awaitResult log (Worker.awaitResult bounded w s) := fun _ => rfl
  cases limit with
  | none =>
      refine ⟨(Worker.awaitResult false w s).1, (Worker.awaitResult false w s).1,
        (Worker.awaitResult false w s).2.1, (Worker.awaitResult false w s).2.2, ?_, Iff.rfl, ?_,
        fun hkeeps hw => ⟨rfl, (hkeeps.awaitResult false w s).trans hw⟩⟩
      · rw [awaitWithin, hwatched]
        rfl
      · cases (Worker.awaitResult false w s).1 <;> rfl
  | some limit =>
      rcases hcall : Worker.awaitResult true w s with ⟨reply, w', s'⟩
      have hindex : KeepsIndex ω σ → Worker.index w = k → Worker.index w' = k := by
        intro hkeeps hw
        rw [← hw]
        simpa only [hcall] using hkeeps.awaitResult true w s
      rw [awaitWithin, awaitWithin, hwatched, hcall]
      cases reply with
      | done =>
          exact ⟨.done, .done, w', s', rfl, Iff.rfl, rfl, fun hkeeps hw => ⟨rfl, hindex hkeeps hw⟩⟩
      | failed e =>
          exact ⟨.failed e, .failed e, w', s', rfl, Iff.rfl, rfl,
            fun hkeeps hw => ⟨rfl, hindex hkeeps hw⟩⟩
      | never =>
          refine ⟨.never, .failed (.timeout k limit), w', s', rfl, by simp, rfl, fun hkeeps hw => ?_⟩
          have hw' := hindex hkeeps hw
          exact ⟨by simp only [hw'], hw'⟩

theorem awaitAll_along (limit : Option Duration) (workers : List ω) (k : Nat) (s : σ)
    (log : List CallEntry) :
    ∃ (reply : Reply) (after : List ω) (s' : σ) (entries : List CallEntry),
      awaitAll limit (Watched.line k workers) (s, log)
          = (reply, Watched.line k after, (s', log ++ entries))
        ∧ after.length = workers.length
        ∧ Along limit ((List.range' k workers.length).map fun i => (i, .awaitResult)) entries
            reply.outcome
        ∧ (KeepsIndex ω σ → workers.map Worker.index = List.range' k workers.length →
            awaitAll limit workers s = (reply, after, s')
              ∧ after.map Worker.index = List.range' k workers.length) := by
  induction workers generalizing k s log with
  | nil => exact ⟨.done, [], s, [], by simp [awaitAll], rfl, .finished, fun _ _ => ⟨rfl, rfl⟩⟩
  | cons w workers ih =>
      rw [Watched.line_cons, awaitAll, awaitAll, List.length_cons, List.range'_succ, List.map_cons]
      obtain ⟨reply, seen, w', s', hwatched, hdone, houtcome, hplain⟩ :=
        awaitWithin_watched limit k w s log
      rw [hwatched]
      by_cases hseen : seen = .done
      · obtain rfl := hdone.mp hseen
        subst hseen
        obtain ⟨reply, after, s'', entries, hall, hafter, halong, hrest⟩ :=
          ih (k + 1) s' (log ++ [⟨k, .awaitResult, .done⟩])
        refine ⟨reply, w' :: after, s'', ⟨k, .awaitResult, .done⟩ :: entries, ?_,
          by simp [hafter], .next halong, fun hkeeps hindices => ?_⟩
        · simp [hall, List.append_assoc]
        · obtain ⟨hw, hworkers⟩ := List.cons.inj hindices
          obtain ⟨hwithin, hw'⟩ := hplain hkeeps hw
          obtain ⟨hawait, hafter'⟩ := hrest hkeeps hworkers
          simp [hwithin, hawait, hw', hafter']
      · refine ⟨seen, w' :: workers, s', [⟨k, .awaitResult, reply⟩], ?_, by simp, ?_,
          fun hkeeps hindices => ?_⟩
        · cases seen <;> simp_all
        · rw [houtcome]
          exact .broken fun hreply => hseen (hdone.mpr hreply)
        · obtain ⟨hw, hworkers⟩ := List.cons.inj hindices
          obtain ⟨hwithin, hw'⟩ := hplain hkeeps hw
          refine ⟨?_, by simp [hw', hworkers]⟩
          rw [hwithin]
          cases seen <;> simp_all

/-- A phase that starts goes along its plan, and leaves the pool idle exactly if it went well. -/
theorem runPhase_along (workers : List ω) (limit : Option Duration) (kind : TaskKind)
    (inputs outputs : List Path) (s : σ) (log : List CallEntry)
    (hinputs : inputs.length = workers.length) (houtputs : outputs.length = workers.length) :
    ∃ (reply : PoolReply Unit) (after : List ω) (state : PoolState) (s' : σ)
        (entries : List CallEntry),
      runPhase ⟨Watched.line 0 workers, .idle, limit⟩ kind inputs outputs (s, log)
          = (reply, ⟨Watched.line 0 after, state, limit⟩, (s', log ++ entries))
        ∧ after.length = workers.length
        ∧ Along limit (PhaseCall.plan ⟨kind, inputs, outputs, true⟩) entries reply
        ∧ (state = .idle ↔ reply = .ok ())
        ∧ (KeepsIndex ω σ → workers.map Worker.index = List.range workers.length →
            runPhase ⟨workers, .idle, limit⟩ kind inputs outputs s
                = (reply, ⟨after, state, limit⟩, s')
              ∧ after.map Worker.index = List.range after.length) := by
  have hzip : (inputs.zip outputs).length = workers.length := by simp [hinputs, houtputs]
  obtain ⟨dispatched, after, s', entries, hplain, hdispatch, hafter, halong, hindices⟩ :=
    dispatchAll_along limit kind workers (inputs.zip outputs) 0 s log hzip
  have hsettle : ∀ reply : Reply, ∃ state, (state = .idle ↔ reply.outcome = .ok ())
      ∧ ∀ (ω' : Type) (before ws : List ω'), settle ⟨before, .idle, limit⟩ kind reply ws
          = (reply.outcome, ⟨ws, state, limit⟩) := by
    intro reply
    cases reply with
    | done => exact ⟨.idle, by simp [Reply.outcome], fun _ _ _ => rfl⟩
    | failed e => exact ⟨.failed, by simp [Reply.outcome], fun _ _ _ => rfl⟩
    | never => exact ⟨.phaseInFlight kind, by simp [Reply.outcome], fun _ _ _ => rfl⟩
  have hfits : ¬ (inputs.length ≠ workers.length ∨ outputs.length ≠ workers.length) := by
    simp [hinputs, houtputs]
  by_cases hdone : dispatched = .done
  · subst hdone
    obtain ⟨awaited, after', s'', entries', hawait, hafter', halong', hplain'⟩ :=
      awaitAll_along limit after 0 s' (log ++ entries)
    obtain ⟨state, hidle, hstate⟩ := hsettle awaited
    refine ⟨awaited.outcome, after', state, s'', entries ++ entries', ?_, hafter'.trans hafter, ?_,
      hidle, fun hkeeps hworkers => ?_⟩
    · simp only [runPhase, Watched.length_line, hfits, hdispatch, hawait, hstate, if_false, ne_eq,
        not_true_eq_false, List.append_assoc]
    · rw [hafter, ← List.range_eq_range', ← hinputs] at halong'
      exact halong.append halong'
    · have hnumbers : after.map Worker.index = List.range' 0 after.length := by
        rw [hindices hkeeps, hworkers, hafter, List.range_eq_range']
      obtain ⟨hawaited, hnumbers'⟩ := hplain' hkeeps hnumbers
      refine ⟨?_, by rw [hnumbers', hafter', List.range_eq_range']⟩
      simp only [runPhase, hfits, hplain, hawaited, hstate, if_false, ne_eq, not_true_eq_false]
  · obtain ⟨state, hidle, hstate⟩ := hsettle dispatched
    refine ⟨dispatched.outcome, after, state, s', entries, ?_, hafter, ?_, hidle,
      fun hkeeps hworkers => ⟨?_, by rw [hindices hkeeps, hworkers, hafter]⟩⟩
    · simp only [runPhase, Watched.length_line, hfits, hdispatch, if_false, ne_eq, not_true_eq_false]
      cases dispatched <;> simp_all
    · exact halong.append_of_ne_ok (Reply.outcome_ne_ok hdone)
    · simp only [runPhase, hfits, hplain, if_false, ne_eq, not_true_eq_false]
      cases dispatched <;> simp_all

end Pool

namespace PhaseCall

variable {ω σ : Type} [Worker ω σ]

theorem run_along (call : PhaseCall) (workers : List ω) (taskTimeout : Option Duration) (s : σ)
    (hfits : call.Fits workers.length) :
    ∃ (reply : PoolReply Unit) (after : List ω) (state : PoolState) (s' : σ)
        (entries : List CallEntry),
      call.run ⟨Watched.line 0 workers, .idle, taskTimeout⟩ (s, [])
          = (reply, ⟨Watched.line 0 after, state, taskTimeout⟩, (s', entries))
        ∧ after.length = workers.length
        ∧ Along (call.limit taskTimeout) call.plan entries reply
        ∧ (state = .idle ↔ reply = .ok ()) := by
  obtain ⟨reply, after, state, s', entries, hphase, hafter, halong, hidle, -⟩ :=
    Pool.runPhase_along workers (call.limit taskTimeout) call.kind call.inputs call.outputs s []
      hfits.1 hfits.2
  refine ⟨reply, after, state, s', entries, ?_, hafter, halong, hidle⟩
  rw [run, Pool.withTaskTimeout, hphase]
  rfl

theorem run_of_not_fits (call : PhaseCall) (p : Pool ω) (s : σ)
    (hfits : ¬ call.Fits p.workers.length) :
    call.run p s = (.failed (.lengthMismatch p.workers.length call.inputs.length
      call.outputs.length), p, s) := by
  have hlengths : call.inputs.length ≠ p.workers.length ∨ call.outputs.length ≠ p.workers.length := by
    rw [Fits] at hfits
    omega
  simp only [run, Pool.runPhase, Pool.withTaskTimeout, hlengths, if_true]

theorem run_of_not_idle (call : PhaseCall) (p : Pool ω) (s : σ)
    (hfits : call.Fits p.workers.length) (hstate : p.state ≠ .idle) :
    call.run p s = (.failed (.unavailable p.state), p, s) := by
  have hlengths : ¬ (call.inputs.length ≠ p.workers.length
      ∨ call.outputs.length ≠ p.workers.length) := by
    simp [hfits.1, hfits.2]
  simp only [run, Pool.runPhase, Pool.withTaskTimeout, hlengths, hstate, if_true, if_false, ne_eq,
    not_false_eq_true]

end PhaseCall

namespace Pool

variable {ω σ : Type} [Worker ω σ]

/-- Records of the phase calls to one pool, in order: each is as it should be, given whether a phase
broke before it. -/
def AllOrderly (n : Nat) (taskTimeout : Option Duration) (broken : Prop)
    (records : List PhaseRecord) : Prop :=
  ∀ before r after, records = before ++ r :: after →
    r.Orderly n taskTimeout (broken ∨ ∃ b ∈ before, b.Broke)

theorem allOrderly_cons {n : Nat} {taskTimeout : Option Duration} {broken : Prop} {r : PhaseRecord}
    {records : List PhaseRecord} (hhead : r.Orderly n taskTimeout broken)
    (htail : AllOrderly n taskTimeout (broken ∨ r.Broke) records) :
    AllOrderly n taskTimeout broken (r :: records) := by
  intro before r' after hrecords
  cases before with
  | nil =>
      obtain ⟨rfl, -⟩ := List.cons.inj hrecords
      simpa using hhead
  | cons b before =>
      obtain ⟨rfl, hrest⟩ := List.cons.inj hrecords
      simpa [or_assoc] using htail before r' after hrest

theorem phases_of_not_idle (p : Pool (Watched ω)) (s : σ) (calls : List PhaseCall)
    (hstate : p.state ≠ .idle) :
    ∃ records, p.phases s calls = (records, p, s)
      ∧ records.map PhaseRecord.call = calls
      ∧ (∀ r ∈ records, r.entries = [])
      ∧ ∀ broken : Prop, broken → AllOrderly p.workers.length p.taskTimeout broken records := by
  induction calls with
  | nil => exact ⟨[], rfl, rfl, by simp, fun _ _ before r after h => by simp at h⟩
  | cons call calls ih =>
      obtain ⟨records, hrun, hcalls, hentries, horderly⟩ := ih
      by_cases hfits : call.Fits p.workers.length
      · let r : PhaseRecord := ⟨call, .failed (.unavailable p.state), []⟩
        have hcall := call.run_of_not_idle p (s, []) hfits hstate
        refine ⟨r :: records, by simp [phases, hcall, hrun, r], by simp [hcalls, r],
          by simpa [r] using hentries, fun broken hbroken => allOrderly_cons ?_ ?_⟩
        · exact ⟨fun _ h => absurd hbroken h, fun _ _ => ⟨rfl, p.state, hstate, rfl⟩,
            fun h => absurd hfits h⟩
        · exact horderly _ (Or.inl hbroken)
      · let r : PhaseRecord := ⟨call, .failed (.lengthMismatch p.workers.length call.inputs.length
          call.outputs.length), []⟩
        have hcall := call.run_of_not_fits p (s, []) hfits
        refine ⟨r :: records, by simp [phases, hcall, hrun, r], by simp [hcalls, r],
          by simpa [r] using hentries, fun broken hbroken => allOrderly_cons ?_ ?_⟩
        · exact ⟨fun h => absurd h hfits, fun h => absurd h hfits, fun _ => ⟨rfl, rfl⟩⟩
        · exact horderly _ (Or.inl hbroken)

/-- Phase calls to an idle pool. The pool is left idle exactly if no phase broke. -/
theorem phases_of_idle (workers : List ω) (taskTimeout : Option Duration) (s : σ)
    (calls : List PhaseCall) :
    ∃ (records : List PhaseRecord) (after : List ω) (state : PoolState) (s' : σ),
      phases ⟨Watched.line 0 workers, .idle, taskTimeout⟩ s calls
          = (records, ⟨Watched.line 0 after, state, taskTimeout⟩, s')
        ∧ after.length = workers.length
        ∧ records.map PhaseRecord.call = calls
        ∧ AllOrderly workers.length taskTimeout False records
        ∧ (state = .idle ↔ ¬ ∃ r ∈ records, r.Broke) := by
  induction calls generalizing workers s with
  | nil =>
      exact ⟨[], workers, .idle, s, rfl, rfl, rfl, fun before r after h => by simp at h, by simp⟩
  | cons call calls ih =>
      by_cases hfits : call.Fits workers.length
      · obtain ⟨reply, after, state, s', entries, hcall, hafter, halong, hidle⟩ :=
          call.run_along workers taskTimeout s hfits
        let r : PhaseRecord := ⟨call, reply, entries⟩
        have horderly : r.Orderly workers.length taskTimeout False :=
          ⟨fun _ _ => halong, fun _ h => h.elim, fun h => absurd hfits h⟩
        by_cases hok : reply = .ok ()
        · obtain rfl := hidle.mpr hok
          obtain ⟨records, after', state, s'', hrun, hafter', hcalls, hall, hstate⟩ := ih after s'
          have hbroke : ¬ r.Broke := fun h => h.2 hok
          refine ⟨r :: records, after', state, s'', by simp [phases, hcall, hrun, r],
            hafter'.trans hafter, by simp [hcalls, r], allOrderly_cons horderly ?_, ?_⟩
          · rw [← hafter]
            simpa [hbroke] using hall
          · simpa [hbroke] using hstate
        · have hnotIdle : state ≠ .idle := fun h => hok (hidle.mp h)
          obtain ⟨records, hrun, hcalls, -, hall⟩ :=
            phases_of_not_idle ⟨Watched.line 0 after, state, taskTimeout⟩ s' calls hnotIdle
          have hbroke : r.Broke := ⟨halong.ne_nil_of_ne_ok hok, hok⟩
          refine ⟨r :: records, after, state, s', by simp [phases, hcall, hrun, r], hafter,
            by simp [hcalls, r], allOrderly_cons horderly ?_, ?_⟩
          · simpa [hafter] using hall (False ∨ r.Broke) (Or.inr hbroke)
          · constructor
            · intro h
              exact absurd h hnotIdle
            · intro h
              exact absurd ⟨r, by simp, hbroke⟩ h
      · let r : PhaseRecord := ⟨call, .failed (.lengthMismatch workers.length call.inputs.length
          call.outputs.length), []⟩
        obtain ⟨records, after, state, s', hrun, hafter, hcalls, hall, hstate⟩ := ih workers s
        have hcall := call.run_of_not_fits ⟨Watched.line 0 workers, .idle, taskTimeout⟩ (s, [])
          (by simpa using hfits)
        have hbroke : ¬ r.Broke := fun h => h.1 rfl
        refine ⟨r :: records, after, state, s', by simp [phases, hcall, hrun, r], hafter,
          by simp [hcalls, r], allOrderly_cons ?_ ?_, ?_⟩
        · exact ⟨fun h => absurd h hfits, fun h => absurd h hfits, fun _ => ⟨rfl, rfl⟩⟩
        · simpa [hbroke] using hall
        · simpa [hbroke] using hstate

/-- **Lockstep.** Whatever its workers do on each call, and whenever callers give phases up, a pool
carries a phase call out along its plan, up to the first call that does not succeed, and that call
decides the reply. Once a phase broke, every phase call is refused without a call to a worker, and
closing the pool does nothing but kill: every worker once, in order, unless a kill never returns. A
call for another number of workers is refused without a call to a worker at any time. -/
theorem session_lockstep (workers : List ω) (taskTimeout : Option Duration)
    (calls : List PhaseCall) (s : σ) :
    let record := session ((ofWorkers (Watched.line 0 workers)).withTaskTimeout taskTimeout) calls s
    record.phases.map PhaseRecord.call = calls
      ∧ (∀ before r after, record.phases = before ++ r :: after →
          r.Orderly workers.length taskTimeout (∃ b ∈ before, b.Broke))
      ∧ ((∃ r ∈ record.phases, r.Broke) →
          Attempted (killPlan workers.length) record.closing
            ∧ ((∀ e ∈ record.closing, e.reply ≠ .never) →
                record.closing.map CallEntry.step = killPlan workers.length)) := by
  obtain ⟨records, after, state, s', hrun, hafter, hcalls, hall, hstate⟩ :=
    phases_of_idle workers taskTimeout s calls
  have hsession : session ((ofWorkers (Watched.line 0 workers)).withTaskTimeout taskTimeout) calls s
      = ⟨records, (close ⟨Watched.line 0 after, state, taskTimeout⟩ (s', [])).2.2.2⟩ := by
    simp only [session, ofWorkers, withTaskTimeout, hrun]
  rw [hsession]
  refine ⟨hcalls, fun before r after h => by simpa using hall before r after h, ?_⟩
  intro hbroke
  have hkill : state.shutdown = .kill := by
    cases state with
    | idle => exact absurd hbroke (hstate.mp rfl)
    | phaseInFlight kind => rfl
    | failed => rfl
  obtain ⟨entries, hkills, hasked⟩ := callAll_watch .kill Worker.kill after 0 s' []
  have hkilled : callAll Worker.kill (Watched.line 0 after) (s', ([] : List CallEntry)) = _ := hkills
  have hclosing : (close ⟨Watched.line 0 after, state, taskTimeout⟩ (s', [])).2.2.2 = entries := by
    simp only [close, hkill, killAll, hkilled]
    cases (callAll Worker.kill after s').1 with
    | none => rfl
    | some errors => cases errors <;> rfl
  have hattempted := hasked.attempted
  rw [hafter, ← List.range_eq_range'] at hattempted
  rw [hclosing]
  exact ⟨hattempted, hattempted.steps_eq⟩

end Pool

end MapReduce
