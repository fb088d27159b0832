import MapReduce.Proofs.Pool.Watched

/-!
# One call to every worker

Some calls go to all workers of a pool in turn, whatever becomes of each: only one that never returns
keeps the next ones from being made. The errors that they end with are gathered in the order of the
workers.
-/

namespace MapReduce

/-- `Attempted plan entries`: the calls of a plan were made in order, each when the one before it had
returned, with an error or without. -/
inductive Attempted : List (Nat × WorkerCall) → List CallEntry → Prop where
  | finished : Attempted [] []
  /-- The calls after one that never returns are not made. -/
  | stuck {k : Nat} {call : WorkerCall} {plan : List (Nat × WorkerCall)} :
      Attempted ((k, call) :: plan) [⟨k, call, .never⟩]
  | next {k : Nat} {call : WorkerCall} {reply : Reply} {plan : List (Nat × WorkerCall)}
      {entries : List CallEntry} (hreply : reply ≠ .never) (rest : Attempted plan entries) :
      Attempted ((k, call) :: plan) (⟨k, call, reply⟩ :: entries)

namespace Attempted

variable {plan plan' : List (Nat × WorkerCall)} {entries entries' : List CallEntry}

theorem steps_eq (h : Attempted plan entries) (hreturned : ∀ e ∈ entries, e.reply ≠ .never) :
    entries.map CallEntry.step = plan := by
  induction h with
  | finished => rfl
  | stuck => exact absurd rfl (hreturned _ (List.mem_singleton_self _))
  | next _ _ ih =>
      rw [List.map_cons, ih fun e he => hreturned e (List.mem_cons_of_mem _ he)]
      rfl

theorem of_returned (hreturned : ∀ e ∈ entries, e.reply ≠ .never) :
    Attempted (entries.map CallEntry.step) entries := by
  induction entries with
  | nil => exact .finished
  | cons e entries ih =>
      exact .next (hreturned e List.mem_cons_self)
        (ih fun e he => hreturned e (List.mem_cons_of_mem _ he))

theorem append (h : Attempted plan entries) (hreturned : ∀ e ∈ entries, e.reply ≠ .never)
    (h' : Attempted plan' entries') : Attempted (plan ++ plan') (entries ++ entries') := by
  induction h with
  | finished => exact h'
  | stuck => exact absurd rfl (hreturned _ (List.mem_singleton_self _))
  | next hreply _ ih =>
      exact .next hreply (ih fun e he => hreturned e (List.mem_cons_of_mem _ he))

theorem append_of_never (h : Attempted plan entries) (hnever : ∃ e ∈ entries, e.reply = .never) :
    Attempted (plan ++ plan') entries := by
  induction h with
  | finished => simp at hnever
  | stuck => exact .stuck
  | next hreply _ ih =>
      obtain ⟨e, he, hreply'⟩ := hnever
      rcases List.mem_cons.mp he with rfl | he
      · exact absurd hreply' hreply
      · exact .next hreply (ih ⟨e, he, hreply'⟩)

end Attempted

def Reply.errors : Reply → List WorkerError
  | .failed e => [e]
  | .done | .never => []

namespace Pool

variable {ω σ : Type}

def killPlan (n : Nat) : List (Nat × WorkerCall) :=
  (List.range n).map fun i => (i, .kill)

def collected (reply : Reply) (errors : Option (List WorkerError)) : Option (List WorkerError) :=
  match reply with
  | .failed e => errors.map (e :: ·)
  | _ => errors

theorem collected_some (reply : Reply) (errors : List WorkerError) :
    collected reply (some errors) = some (reply.errors ++ errors) := by
  cases reply <;> rfl

theorem collected_none (reply : Reply) : collected reply none = none := by
  cases reply <;> rfl

/-- `Asked call c k workers entries errors after`: the call was made to each of the workers, which
stand at the positions from `k` on, until one of them did not return from it. -/
inductive Asked (call : ω → σ → Reply × ω × σ) (c : WorkerCall) :
    Nat → List ω → List CallEntry → Option (List WorkerError) → List ω → Prop where
  | finished {k : Nat} : Asked call c k [] [] (some []) []
  | stuck {k : Nat} {w : ω} {ws : List ω} {s : σ} (hreply : (call w s).1 = .never) :
      Asked call c k (w :: ws) [⟨k, c, .never⟩] none ((call w s).2.1 :: ws)
  | next {k : Nat} {w : ω} {ws after : List ω} {s : σ} {entries : List CallEntry}
      {errors : Option (List WorkerError)} (hreply : (call w s).1 ≠ .never)
      (rest : Asked call c (k + 1) ws entries errors after) :
      Asked call c k (w :: ws) (⟨k, c, (call w s).1⟩ :: entries) (collected (call w s).1 errors)
        ((call w s).2.1 :: after)

variable {call : ω → σ → Reply × ω × σ} {w : ω} {s : σ}

theorem callAll_cons_of_never (h : (call w s).1 = .never) (ws : List ω) :
    callAll call (w :: ws) s = (none, (call w s).2.1 :: ws, (call w s).2.2) := by
  rw [callAll]
  generalize call w s = ended at h
  obtain ⟨reply, w', s'⟩ := ended
  obtain rfl : reply = .never := h
  rfl

theorem callAll_cons_of_returned (h : (call w s).1 ≠ .never) (ws : List ω) :
    callAll call (w :: ws) s
      = (collected (call w s).1 (callAll call ws (call w s).2.2).1,
        (call w s).2.1 :: (callAll call ws (call w s).2.2).2.1,
        (callAll call ws (call w s).2.2).2.2) := by
  rw [callAll]
  generalize call w s = ended at h
  obtain ⟨reply, w', s'⟩ := ended
  cases reply with
  | done => rfl
  | failed e => rfl
  | never => exact absurd rfl h

def watch (c : WorkerCall) (call : ω → σ → Reply × ω × σ) (w : Watched ω)
    (s : σ × List CallEntry) : Reply × Watched ω × (σ × List CallEntry) :=
  w.record c s.2 (call w.worker s.1)

/-- Watched workers are asked as the workers inside them would be. -/
theorem callAll_watch (c : WorkerCall) (call : ω → σ → Reply × ω × σ) (workers : List ω) (k : Nat)
    (s : σ) (log : List CallEntry) :
    ∃ entries, callAll (watch c call) (Watched.line k workers) (s, log)
          = ((callAll call workers s).1, Watched.line k (callAll call workers s).2.1,
            ((callAll call workers s).2.2, log ++ entries))
        ∧ Asked call c k workers entries (callAll call workers s).1 (callAll call workers s).2.1 := by
  induction workers generalizing k s log with
  | nil => exact ⟨[], by simp [callAll], .finished⟩
  | cons w workers ih =>
      rw [Watched.line_cons]
      by_cases hnever : (call w s).1 = .never
      · have hwatched : (watch c call ⟨k, w⟩ (s, log)).1 = .never := hnever
        refine ⟨[⟨k, c, .never⟩], ?_, ?_⟩
        · rw [callAll_cons_of_never hnever, callAll_cons_of_never hwatched, ← hnever]
          simp [watch, Watched.record]
        · rw [callAll_cons_of_never hnever]
          exact .stuck hnever
      · have hwatched : (watch c call ⟨k, w⟩ (s, log)).1 ≠ .never := hnever
        obtain ⟨entries, hall, hasked⟩ :=
          ih (k + 1) (call w s).2.2 (log ++ [⟨k, c, (call w s).1⟩])
        refine ⟨⟨k, c, (call w s).1⟩ :: entries, ?_, ?_⟩
        · rw [callAll_cons_of_returned hnever, callAll_cons_of_returned hwatched]
          simp [watch, Watched.record, hall]
        · rw [callAll_cons_of_returned hnever]
          exact .next hnever hasked

namespace Asked

variable {c : WorkerCall} {k : Nat} {workers after : List ω}
  {entries : List CallEntry} {errors : Option (List WorkerError)}

theorem length_eq (h : Asked call c k workers entries errors after) :
    after.length = workers.length := by
  induction h with
  | finished => rfl
  | stuck => rfl
  | next _ _ ih => rw [List.length_cons, List.length_cons, ih]

theorem attempted (h : Asked call c k workers entries errors after) :
    Attempted ((List.range' k workers.length).map fun i => (i, c)) entries := by
  induction h with
  | finished => exact .finished
  | stuck =>
      rw [List.length_cons, List.range'_succ, List.map_cons]
      exact .stuck
  | next hreply _ ih =>
      rw [List.length_cons, List.range'_succ, List.map_cons]
      exact .next hreply ih

theorem call_eq (h : Asked call c k workers entries errors after) : ∀ e ∈ entries, e.call = c := by
  induction h with
  | finished => simp
  | stuck => simp
  | next _ _ ih => simpa using ih

/-- The errors are given back when every call has returned. -/
theorem errors_eq (h : Asked call c k workers entries errors after)
    (hreturned : ∀ e ∈ entries, e.reply ≠ .never) :
    errors = some (entries.flatMap fun e => e.reply.errors) := by
  induction h with
  | finished => rfl
  | stuck => exact absurd rfl (hreturned _ (List.mem_singleton_self _))
  | next _ _ ih =>
      rw [ih fun e he => hreturned e (List.mem_cons_of_mem _ he), collected_some, List.flatMap_cons]

theorem errors_eq_none (h : Asked call c k workers entries errors after)
    (hnever : ∃ e ∈ entries, e.reply = .never) : errors = none := by
  induction h with
  | finished => simp at hnever
  | stuck => rfl
  | next hreply _ ih =>
      obtain ⟨e, he, hreply'⟩ := hnever
      rcases List.mem_cons.mp he with rfl | he
      · exact absurd hreply' hreply
      · rw [ih ⟨e, he, hreply'⟩, collected_none]

end Asked

end Pool

end MapReduce
