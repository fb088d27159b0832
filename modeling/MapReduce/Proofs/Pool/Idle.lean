import MapReduce.Proofs.Pool.Lockstep
import MapReduce.Proofs.Pool.Opening

/-!
# Idle pools

A worker goes through a cycle: at rest it takes a task, at work it is waited for, and when it has
answered it is at rest again. A pool keeps its workers to that cycle. Whenever it is idle all of them
are at rest, and a phase that stops half way leaves it in a state in which none of them is handed
another task, waited for or asked to exit. So no worker is ever called for what it cannot do.
-/

namespace MapReduce

variable {ω σ : Type}

/-- A call that ended without an unfair error and left a sound world. If it was carried out, what it
left is as it should be next. -/
structure Ends {α : Type} (next : α → Prop) (sound : σ → Prop) (fair : WorkerError → Prop)
    (ended : Reply × α × σ) : Prop where
  fair : ∀ e ∈ ended.1.errors, fair e
  sound : sound ended.2.2
  next : ended.1 = .done → next ended.2.1

/-- The calls that a worker is prepared for at rest, at work, and at any time, if it is only handed
tasks of some kind. -/
structure Cycle [Worker ω σ] (tasks : Task → Prop) (rests works : ω → Prop) (sound : σ → Prop)
    (fair : WorkerError → Prop) : Prop where
  dispatch : ∀ task (w : ω) s, tasks task → rests w → sound s →
    Ends works sound fair (Worker.dispatch task w s)
  awaitResult : ∀ bounded (w : ω) s, works w → sound s →
    Ends rests sound fair (Worker.awaitResult bounded w s)
  terminate : ∀ (w : ω) s, rests w → sound s → Ends (fun _ => True) sound fair (Worker.terminate w s)
  kill : ∀ (w : ω) s, sound s → Ends (fun _ => True) sound fair (Worker.kill w s)
  timeout : ∀ index limit, fair (.timeout index limit)

namespace Ends

variable {α β : Type} {next : α → Prop} {sound : σ → Prop} {fair : WorkerError → Prop}

variable {a : α} {e : WorkerError} {s : σ}

theorem of_done (ha : next a) (hs : sound s) : Ends next sound fair (.done, a, s) :=
  ⟨by simp [Reply.errors], hs, fun _ => ha⟩

theorem of_failed (he : fair e) (hs : sound s) : Ends next sound fair (.failed e, a, s) :=
  ⟨by simpa [Reply.errors] using he, hs, by simp⟩

theorem of_never (hs : sound s) : Ends next sound fair (.never, a, s) :=
  ⟨by simp [Reply.errors], hs, by simp⟩

/-- A call that was not carried out leaves nothing behind that is relied on. -/
theorem of_ne_done {next' : β → Prop} {reply : Reply} {b : β}
    (h : Ends next sound fair (reply, a, s)) (hreply : reply ≠ .done) :
    Ends next' sound fair (reply, b, s) :=
  ⟨h.fair, h.sound, fun hdone => absurd hdone hreply⟩

end Ends

/-- Worlds in which every call so far ended without an unfair error. -/
def Logged (sound : σ → Prop) (fair : WorkerError → Prop) (s : σ × List CallEntry) : Prop :=
  sound s.1 ∧ ∀ entry ∈ s.2, ∀ e ∈ entry.reply.errors, fair e

section Watched

variable {tasks : Task → Prop} {rests works : ω → Prop} {sound : σ → Prop}
  {fair : WorkerError → Prop}

theorem Ends.record {next : ω → Prop} {ended : Reply × ω × σ} (h : Ends next sound fair ended)
    (w : Watched ω) (call : WorkerCall) {log : List CallEntry}
    (hlog : ∀ entry ∈ log, ∀ e ∈ entry.reply.errors, fair e) :
    Ends (fun w : Watched ω => next w.worker) (Logged sound fair) fair (w.record call log ended) where
  fair := h.fair
  sound := ⟨h.sound, List.forall_mem_append.mpr ⟨hlog, by simpa using h.fair⟩⟩
  next := h.next

/-- Workers that are watched go through the cycle of the workers inside them. -/
theorem Cycle.watched [Worker ω σ] (h : Cycle tasks rests works sound fair) :
    Cycle tasks (fun w : Watched ω => rests w.worker) (fun w => works w.worker)
      (Logged sound fair) fair where
  dispatch task w s htask hw hs := (h.dispatch task w.worker s.1 htask hw hs.1).record w _ hs.2
  awaitResult bounded w s hw hs := (h.awaitResult bounded w.worker s.1 hw hs.1).record w _ hs.2
  terminate w s hw hs := (h.terminate w.worker s.1 hw hs.1).record w _ hs.2
  kill w s hs := (h.kill w.worker s.1 hs.1).record w _ hs.2
  timeout := h.timeout

end Watched

namespace Pool

variable {tasks : Task → Prop} {rests works : ω → Prop} {sound : σ → Prop}
  {fair : WorkerError → Prop} {kind : TaskKind} {ws : List ω} {s : σ} {p : Pool ω}

/-- An idle pool has all its workers at rest. -/
def AtRest (rests : ω → Prop) (p : Pool ω) : Prop :=
  p.state = .idle → ∀ w ∈ p.workers, rests w

/-- How a phase ends that was called for at the right time and with the right files. -/
structure PhaseEnds (rests : ω → Prop) (sound : σ → Prop) (fair : WorkerError → Prop) (n : Nat)
    (ended : PoolReply Unit × Pool ω × σ) : Prop where
  fair : ∀ e, ended.1 = .failed e → ∃ e', e = .worker e' ∧ fair e'
  sound : sound ended.2.2
  atRest : AtRest rests ended.2.1
  ready : ended.1 = .ok () → ended.2.1.state = .idle ∧ ended.2.1.workers.length = n

theorem settle_cycle {n : Nat} {reply : Reply}
    (h : Ends (fun ws => ws.length = n ∧ ∀ w ∈ ws, rests w) sound fair (reply, ws, s)) :
    PhaseEnds rests sound fair n ((p.settle kind reply ws).1, (p.settle kind reply ws).2, s) := by
  cases reply with
  | done =>
      obtain ⟨hlength, hrests⟩ := h.next rfl
      exact ⟨by simp [settle], h.sound, fun _ => hrests, fun _ => ⟨rfl, hlength⟩⟩
  | failed e =>
      have he : fair e := h.fair e (by simp [Reply.errors])
      exact ⟨by simpa [settle] using he, h.sound, by simp [AtRest, settle], by simp [settle]⟩
  | never => exact ⟨by simp [settle], h.sound, by simp [AtRest, settle], by simp [settle]⟩

/-! ### Phases -/

section Phases

variable [Worker ω σ]

theorem dispatchAll_cycle (h : Cycle tasks rests works sound fair) (kind : TaskKind)
    (files : List (Path × Path)) (hfiles : ∀ file ∈ files, tasks ⟨kind, file.1, file.2⟩)
    (hws : ∀ w ∈ ws, rests w) (hs : sound s) (hlength : files.length = ws.length) :
    Ends (fun ws' => ws'.length = ws.length ∧ ∀ w ∈ ws', works w) sound fair
      (dispatchAll kind ws files s) := by
  induction ws generalizing files s with
  | nil =>
      obtain rfl : files = [] := List.length_eq_zero_iff.mp hlength
      exact .of_done ⟨rfl, by simp⟩ hs
  | cons w ws ih =>
      obtain ⟨⟨input, output⟩, files, rfl⟩ := List.exists_cons_of_length_eq_add_one hlength
      have hcall := h.dispatch ⟨kind, input, output⟩ w s (hfiles _ List.mem_cons_self)
        (hws w List.mem_cons_self) hs
      rw [dispatchAll]
      rcases hended : Worker.dispatch ⟨kind, input, output⟩ w s with ⟨reply, w', s'⟩
      rw [hended] at hcall
      cases reply with
      | done =>
          have hrest := ih files (fun file hfile => hfiles file (List.mem_cons_of_mem _ hfile))
            (fun w hw => hws w (List.mem_cons_of_mem _ hw)) hcall.sound (by simpa using hlength)
          refine ⟨hrest.fair, hrest.sound, fun hdone => ?_⟩
          obtain ⟨hafter, hworks⟩ := hrest.next hdone
          exact ⟨by simp [hafter], List.forall_mem_cons.mpr ⟨hcall.next rfl, hworks⟩⟩
      | failed e => exact hcall.of_ne_done (by simp)
      | never => exact hcall.of_ne_done (by simp)

theorem awaitWithin_cycle (h : Cycle tasks rests works sound fair) (limit : Option Duration) {w : ω}
    (hw : works w) (hs : sound s) : Ends rests sound fair (awaitWithin limit w s) := by
  cases limit with
  | none => exact h.awaitResult false w s hw hs
  | some limit =>
      have hcall := h.awaitResult true w s hw hs
      rw [awaitWithin]
      rcases hended : Worker.awaitResult true w s with ⟨reply, w', s'⟩
      rw [hended] at hcall
      cases reply with
      | done => exact hcall
      | failed e => exact hcall
      | never => exact .of_failed (h.timeout (Worker.index w') limit) hcall.sound

theorem awaitAll_cycle (h : Cycle tasks rests works sound fair) (limit : Option Duration)
    (hws : ∀ w ∈ ws, works w) (hs : sound s) :
    Ends (fun ws' => ws'.length = ws.length ∧ ∀ w ∈ ws', rests w) sound fair
      (awaitAll limit ws s) := by
  induction ws generalizing s with
  | nil => exact .of_done ⟨rfl, by simp⟩ hs
  | cons w ws ih =>
      have hcall := awaitWithin_cycle h limit (hws w List.mem_cons_self) hs
      rw [awaitAll]
      rcases hended : awaitWithin limit w s with ⟨reply, w', s'⟩
      rw [hended] at hcall
      cases reply with
      | done =>
          have hrest := ih (fun w hw => hws w (List.mem_cons_of_mem _ hw)) hcall.sound
          refine ⟨hrest.fair, hrest.sound, fun hdone => ?_⟩
          obtain ⟨hafter, hrests⟩ := hrest.next hdone
          exact ⟨by simp [hafter], List.forall_mem_cons.mpr ⟨hcall.next rfl, hrests⟩⟩
      | failed e => exact hcall.of_ne_done (by simp)
      | never => exact hcall.of_ne_done (by simp)

/-- A phase that starts leaves all workers at rest or the pool not idle. -/
theorem runPhase_cycle (h : Cycle tasks rests works sound fair) (hidle : p.state = .idle)
    (hws : ∀ w ∈ p.workers, rests w) (hs : sound s) {inputs outputs : List Path}
    (hfiles : ∀ file ∈ inputs.zip outputs, tasks ⟨kind, file.1, file.2⟩)
    (hinputs : inputs.length = p.workers.length) (houtputs : outputs.length = p.workers.length) :
    PhaseEnds rests sound fair p.workers.length (p.runPhase kind inputs outputs s) := by
  have hfits : ¬ (inputs.length ≠ p.workers.length ∨ outputs.length ≠ p.workers.length) := by
    simp [hinputs, houtputs]
  have hdispatch := dispatchAll_cycle h kind (inputs.zip outputs) hfiles hws hs
    (by simp [hinputs, houtputs])
  simp only [runPhase, if_neg hfits, hidle, ne_eq, not_true_eq_false, if_false]
  rcases hdispatched : dispatchAll kind p.workers (inputs.zip outputs) s with ⟨reply, ws, s'⟩
  rw [hdispatched] at hdispatch
  cases reply with
  | done =>
      obtain ⟨hlength, hworks⟩ := hdispatch.next rfl
      have hawait := awaitAll_cycle h p.taskTimeout hworks hdispatch.sound
      rw [hlength] at hawait
      exact settle_cycle hawait
  | failed e => exact settle_cycle (hdispatch.of_ne_done (by simp))
  | never => exact settle_cycle (hdispatch.of_ne_done (by simp))

end Phases

/-! ### Opening and closing -/

theorem callAll_cycle {call : ω → σ → Reply × ω × σ} {ready : ω → Prop}
    (hcall : ∀ w s, ready w → sound s → Ends (fun _ => True) sound fair (call w s))
    (hws : ∀ w ∈ ws, ready w) (hs : sound s) :
    (∀ errors, (callAll call ws s).1 = some errors → ∀ e ∈ errors, fair e)
      ∧ sound (callAll call ws s).2.2 := by
  induction ws generalizing s with
  | nil => exact ⟨by simp [callAll], hs⟩
  | cons w ws ih =>
      have hended := hcall w s (hws w List.mem_cons_self) hs
      have hrest := ih (fun w hw => hws w (List.mem_cons_of_mem _ hw)) hended.sound
      by_cases hnever : (call w s).1 = .never
      · rw [callAll_cons_of_never hnever]
        exact ⟨by simp, hended.sound⟩
      · rw [callAll_cons_of_returned hnever]
        refine ⟨fun errors herrors => ?_, hrest.2⟩
        cases hcollected : (callAll call ws (call w s).2.2).1 with
        | none => simp [hcollected, collected_none] at herrors
        | some rest =>
            rw [hcollected, collected_some, Option.some.injEq] at herrors
            subst herrors
            exact List.forall_mem_append.mpr ⟨hended.fair, hrest.1 rest hcollected⟩

/-- How the closing of a pool ends. -/
structure CloseEnds (sound : σ → Prop) (fair : WorkerError → Prop)
    (ended : PoolReply Unit × List ω × σ) : Prop where
  fair : ∀ e, ended.1 = .failed e → ∃ errors, e = .shutdown errors ∧ ∀ e' ∈ errors, fair e'
  sound : sound ended.2.2

/-- A start that gives workers at rest, or fails with a fair error. -/
def Starts (rests : ω → Prop) (sound : σ → Prop) (fair : WorkerError → Prop)
    (start : Nat → σ → Except WorkerError ω × σ) : Prop :=
  ∀ index s, sound s → sound (start index s).2
    ∧ (∀ w, (start index s).1 = .ok w → rests w) ∧ ∀ e, (start index s).1 = .error e → fair e

theorem Starts.watched {start : Nat → σ → Except WorkerError ω × σ}
    (h : Starts rests sound fair start) :
    Starts (fun w : Watched ω => rests w.worker) (Logged sound fair) fair (Watched.start start) := by
  intro index s hs
  obtain ⟨hsound, hrests, hfair⟩ := h index s.1 hs.1
  refine ⟨⟨hsound, hs.2⟩, ?_, ?_⟩
  · intro w hw
    cases hone : (start index s.1).1 with
    | error e => simp [Watched.start, hone, Except.map] at hw
    | ok w' =>
        rw [Watched.start, hone] at hw
        obtain rfl := Except.ok.inj hw
        exact hrests w' hone
  · intro e he
    cases hone : (start index s.1).1 with
    | ok w' => simp [Watched.start, hone, Except.map] at he
    | error e' =>
        rw [Watched.start, hone] at he
        obtain rfl := Except.error.inj he
        exact hfair e' hone

section Closing

variable [Worker ω σ]

theorem killAll_cycle (h : Cycle tasks rests works sound fair) {before : List WorkerError}
    (hbefore : ∀ e ∈ before, fair e) (ws : List ω) (hs : sound s) :
    CloseEnds sound fair (killAll before ws s) := by
  have hready : ∀ w ∈ ws, True := fun _ _ => trivial
  obtain ⟨hfair, hsound⟩ := callAll_cycle (fun w s _ hs => h.kill w s hs) hready hs
  rw [killAll_eq]
  refine ⟨?_, hsound⟩
  intro e he
  cases herrors : (callAll Worker.kill ws s).1 with
  | none => simp [herrors, replyTo] at he
  | some errors =>
      rw [herrors, replyTo, verdict] at he
      split at he
      · cases he
      · obtain rfl := Outcome.failed.inj he
        exact ⟨_, rfl, List.forall_mem_append.mpr ⟨hbefore, hfair errors herrors⟩⟩

theorem close_cycle (h : Cycle tasks rests works sound fair) (hp : AtRest rests p) (hs : sound s) :
    CloseEnds sound fair (p.close s) := by
  cases hshutdown : p.state.shutdown with
  | kill =>
      simp only [close, hshutdown]
      exact killAll_cycle h (by simp) p.workers hs
  | graceful =>
      obtain ⟨hfair, hsound⟩ := callAll_cycle h.terminate (hp (state_eq_idle hshutdown)) hs
      rcases hcalls : callAll Worker.terminate p.workers s with ⟨_ | _ | ⟨e, errors⟩, ws, s'⟩
      all_goals rw [hcalls] at hfair hsound
      all_goals simp only [close, hshutdown, hcalls]
      · exact ⟨by simp, hsound⟩
      · exact ⟨by simp, hsound⟩
      · exact killAll_cycle h (hfair (e :: errors) rfl) ws hsound

/-- How the opening of a pool of `n` workers ends. -/
structure OpenEnds (rests : ω → Prop) (sound : σ → Prop) (fair : WorkerError → Prop) (n : Nat)
    (ended : PoolReply (Pool ω) × σ) : Prop where
  ready : ∀ p, ended.1 = .ok p →
    p.state = .idle ∧ p.workers.length = n ∧ ∀ w ∈ p.workers, rests w
  fair : ∀ e, ended.1 = .failed e → e = .empty ∧ n = 0 ∨ ∃ e', e = .worker e' ∧ fair e'
  sound : sound ended.2

theorem startAll_cycle (h : Cycle tasks rests works sound fair)
    {start : Nat → σ → Except WorkerError ω × σ} (hstart : Starts rests sound fair start)
    (remaining : Nat) {started : List ω} (hstarted : ∀ w ∈ started, rests w) (index : Nat)
    (hs : sound s) :
    OpenEnds rests sound fair (started.length + remaining)
      (startAll start started index s remaining) := by
  induction remaining generalizing started index s with
  | zero => exact ⟨by simpa [startAll, ofWorkers] using hstarted, by simp [startAll], hs⟩
  | succ remaining ih =>
      obtain ⟨hsound, hrests, hfair⟩ := hstart index s hs
      rcases hone : start index s with ⟨e | w, s'⟩
      · rw [hone] at hsound hfair
        have hclose : CloseEnds sound fair ((ofWorkers started.reverse).close s') :=
          close_cycle h (fun _ => by simpa [ofWorkers] using hstarted) hsound
        rw [startAll_of_error hone]
        refine ⟨?_, ?_, hclose.sound⟩
        · intro p hp
          cases hreply : ((ofWorkers started.reverse).close s').1 <;> simp [hreply, startFailure] at hp
        · intro e' he'
          cases hreply : ((ofWorkers started.reverse).close s').1 <;>
            simp only [hreply, startFailure, reduceCtorEq, Outcome.failed.injEq] at he'
          all_goals exact Or.inr ⟨e, he'.symm, hfair e rfl⟩
      · rw [hone] at hsound hrests
        have hrest := ih (List.forall_mem_cons.mpr ⟨hrests w rfl, hstarted⟩) (index + 1) hsound
        rw [List.length_cons, Nat.add_right_comm] at hrest
        rwa [startAll, hone]

theorem openWith_cycle (h : Cycle tasks rests works sound fair)
    {start : Nat → σ → Except WorkerError ω × σ} (hstart : Starts rests sound fair start) (n : Nat)
    (hs : sound s) : OpenEnds rests sound fair n (openWith n start s) := by
  rw [openWith]
  by_cases hn : n = 0
  · rw [if_pos hn]
    exact ⟨by simp, by simpa using hn, hs⟩
  · rw [if_neg hn]
    have hnone : ∀ w ∈ ([] : List ω), rests w := by simp
    have hall := startAll_cycle h hstart n hnone 0 hs
    rwa [List.length_nil, Nat.zero_add] at hall

end Closing

end Pool

/-! ### The life of a pool -/

/-- What can happen between the opening of a pool and its closing. -/
inductive PoolEvent (σ : Type) where
  | phase (call : PhaseCall)
  | limit (taskTimeout : Option Duration)
  /-- Something that does not concern the pool. -/
  | elsewhere (change : σ → σ)

namespace PoolEvent

def watched : PoolEvent σ → PoolEvent (σ × List CallEntry)
  | .phase call => .phase call
  | .limit taskTimeout => .limit taskTimeout
  | .elsewhere change => .elsewhere fun s => (change s.1, s.2)

variable [Worker ω σ]

def step (now : Pool ω × σ) : PoolEvent σ → Pool ω × σ
  | .phase call => (call.run now.1 now.2).2
  | .limit taskTimeout => (now.1.withTaskTimeout taskTimeout, now.2)
  | .elsewhere change => (now.1, change now.2)

section

variable {tasks : Task → Prop} {rests works : ω → Prop} {sound : σ → Prop}
  {fair : WorkerError → Prop}

theorem run_cycle (h : Cycle (fun _ => True) rests works sound fair) (call : PhaseCall)
    {p : Pool ω} {s : σ} (hp : p.AtRest rests) (hs : sound s) :
    (call.run p s).2.1.AtRest rests ∧ sound (call.run p s).2.2 := by
  by_cases hfits : call.Fits p.workers.length
  · by_cases hidle : p.state = .idle
    · have hidle' : (p.withTaskTimeout (call.limit p.taskTimeout)).state = .idle := hidle
      have hphase : Pool.PhaseEnds rests sound fair p.workers.length
          ((p.withTaskTimeout (call.limit p.taskTimeout)).runPhase call.kind call.inputs
            call.outputs s) :=
        Pool.runPhase_cycle h hidle' (hp hidle) hs (fun _ _ => trivial) hfits.1 hfits.2
      exact ⟨hphase.atRest, hphase.sound⟩
    · rw [call.run_of_not_idle p s hfits hidle]
      exact ⟨hp, hs⟩
  · rw [call.run_of_not_fits p s hfits]
    exact ⟨hp, hs⟩

/-- Whatever happens, an idle pool has its workers at rest. -/
theorem step_cycle (h : Cycle (fun _ => True) rests works sound fair) (event : PoolEvent σ)
    (hchange : ∀ change, event = .elsewhere change → ∀ s, sound s → sound (change s))
    {now : Pool ω × σ} (hp : now.1.AtRest rests) (hs : sound now.2) :
    (event.step now).1.AtRest rests ∧ sound (event.step now).2 := by
  cases event with
  | phase call => exact run_cycle h call hp hs
  | limit taskTimeout => exact ⟨hp, hs⟩
  | elsewhere change => exact ⟨hp, hchange change rfl now.2 hs⟩

end

end PoolEvent

namespace Pool

variable [Worker ω σ]

def live (events : List (PoolEvent σ)) (p : Pool ω) (s : σ) : Pool ω × σ :=
  events.foldl PoolEvent.step (p, s)

/-- All calls that a pool makes from its opening to its closing. -/
def lifeLog (n : Nat) (start : Nat → σ → Except WorkerError ω × σ) (events : List (PoolEvent σ))
    (s : σ) : List CallEntry :=
  match openWith n (Watched.start start) (s, []) with
  | (.ok p, s) =>
    let (p, s) := p.live (events.map PoolEvent.watched) s
    (p.close s).2.2.2
  | (_, s) => s.2

section

variable {rests works : ω → Prop} {sound : σ → Prop} {fair : WorkerError → Prop}

theorem live_cycle (h : Cycle (fun _ => True) rests works sound fair) (events : List (PoolEvent σ))
    (hchange : ∀ change, .elsewhere change ∈ events → ∀ s, sound s → sound (change s)) {p : Pool ω}
    {s : σ} (hp : p.AtRest rests) (hs : sound s) :
    (p.live events s).1.AtRest rests ∧ sound (p.live events s).2 := by
  induction events generalizing p s with
  | nil => exact ⟨hp, hs⟩
  | cons event events ih =>
      have hstep : (event.step (p, s)).1.AtRest rests ∧ sound (event.step (p, s)).2 :=
        event.step_cycle h (fun change hevent => hchange change (hevent ▸ List.mem_cons_self)) hp hs
      exact ih (fun change hmem => hchange change (List.mem_cons_of_mem _ hmem)) hstep.1 hstep.2

/-- Every call of the life of a pool ends without an unfair error. -/
theorem lifeLog_cycle (h : Cycle (fun _ => True) rests works (fun _ => True) fair)
    {start : Nat → σ → Except WorkerError ω × σ} (hstart : Starts rests (fun _ => True) fair start)
    (n : Nat) (events : List (PoolEvent σ)) (s : σ) :
    ∀ entry ∈ lifeLog n start events s, ∀ e ∈ entry.reply.errors, fair e := by
  have hopen := openWith_cycle h.watched hstart.watched n (s := (s, [])) ⟨trivial, by simp⟩
  unfold lifeLog
  rcases hopened : openWith n (Watched.start start) (s, []) with ⟨p | e | _, s'⟩
  · rw [hopened] at hopen
    obtain ⟨hidle, -, hrests⟩ := hopen.ready p rfl
    have hchange : ∀ change, .elsewhere change ∈ events.map PoolEvent.watched →
        ∀ s : σ × List CallEntry, Logged (fun _ => True) fair s →
          Logged (fun _ => True) fair (change s) := by
      intro change hmem s hs
      obtain ⟨event, -, hevent⟩ := List.mem_map.mp hmem
      cases event with
      | phase call => cases hevent
      | limit taskTimeout => cases hevent
      | elsewhere change' =>
          obtain rfl := PoolEvent.elsewhere.inj hevent
          exact hs
    have hlive := live_cycle h.watched (events.map PoolEvent.watched) hchange (fun _ => hrests)
      hopen.sound
    exact (close_cycle h.watched hlive.1 hlive.2).sound.2
  · rw [hopened] at hopen
    exact hopen.sound.2
  · rw [hopened] at hopen
    exact hopen.sound.2

end

end Pool

end MapReduce
