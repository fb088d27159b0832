import MapReduce.Proofs.LiveWorker

/-!
# Pools of workers that run tasks

A phase on a pool whose processes are serving comes to the same as running its tasks one after the
other: it goes well if they all do, and otherwise the first failure that is awaited is its error.
Opening such a pool and closing it leave the files alone.
-/

namespace MapReduce.Pool

open LiveWorker (Resting Waiting)

variable {runner : TaskRunner} {kind : TaskKind} {ws : List (ProcessWorker AnyChild)} {t : FileTree}
  {inputs outputs : List Path} {results : List (Except TaskError Nat)} {n : Nat}

theorem dispatchAll_resting (kind : TaskKind) (t : FileTree) (hws : ∀ w ∈ ws, Resting runner w)
    (hinputs : ws.length = inputs.length) (houtputs : ws.length = outputs.length)
    (hsendable : ∀ path ∈ inputs ++ outputs, Command.isSendable path = true) :
    ∃ ws', dispatchAll kind ws (inputs.zip outputs) t
        = (.done, ws', (runner.runEach t (tasksOf kind inputs outputs)).2)
      ∧ ws'.length = ws.length
      ∧ List.Forall₂ (fun w result => Waiting runner kind result w) ws'
          (runner.runEach t (tasksOf kind inputs outputs)).1 := by
  induction ws generalizing inputs outputs t with
  | nil =>
      obtain rfl := List.length_eq_zero_iff.mp hinputs.symm
      exact ⟨[], rfl, rfl, .nil⟩
  | cons w ws ih =>
      obtain ⟨input, inputs, rfl⟩ := List.exists_cons_of_length_eq_add_one hinputs.symm
      obtain ⟨output, outputs, rfl⟩ := List.exists_cons_of_length_eq_add_one houtputs.symm
      obtain ⟨w', hdispatch, hwaiting, -⟩ := @LiveWorker.dispatch_resting runner w
        ⟨kind, input, output⟩ (hws w (by simp)) (hsendable input (by simp))
        (hsendable output (by simp)) t
      obtain ⟨ws', hrest, hlength, hwaitings⟩ := ih (runner.run ⟨kind, input, output⟩ t).2
        (fun w hw => hws w (by simp [hw])) (by simpa using hinputs) (by simpa using houtputs)
        fun path hpath => hsendable path (by
          rcases List.mem_append.mp hpath with h | h <;> simp [h])
      refine ⟨w' :: ws', ?_, by simp [hlength], .cons hwaiting hwaitings⟩
      rw [List.zip_cons_cons, dispatchAll, hdispatch]
      simp only [hrest]
      rfl

theorem awaitWithin_waiting {result : Except TaskError Nat} {w : ProcessWorker AnyChild}
    (h : Waiting runner kind result w) (limit : Option Duration) (t : FileTree) :
    ∃ w', awaitWithin limit w t = (TaskRunner.report w.index kind result, w', t)
      ∧ Resting runner w' := by
  cases limit with
  | none =>
      obtain ⟨w', hawait, hresting, -⟩ := LiveWorker.awaitResult_waiting h false t
      exact ⟨w', hawait, hresting⟩
  | some limit =>
      obtain ⟨w', hawait, hresting, -⟩ := LiveWorker.awaitResult_waiting h true t
      refine ⟨w', ?_, hresting⟩
      rw [awaitWithin, hawait]
      cases result <;> rfl

theorem awaitAll_waiting
    (h : List.Forall₂ (fun w result => Waiting runner kind result w) ws results)
    (limit : Option Duration) (t : FileTree) :
    ∃ reply ws', awaitAll limit ws t = (reply, ws', t)
      ∧ (AllOk results → reply = .done ∧ ws'.length = ws.length ∧ ∀ w ∈ ws', Resting runner w)
      ∧ (¬ AllOk results → ∃ e, reply = .failed e) := by
  induction h with
  | nil => exact ⟨.done, [], rfl, by simp, by simp [AllOk]⟩
  | @cons w result ws results hwaiting _ ih =>
      obtain ⟨w', hawait, hresting⟩ := awaitWithin_waiting hwaiting limit t
      obtain ⟨reply, ws', hrest, hok, hfailed⟩ := ih
      rw [awaitAll, hawait, allOk_cons_iff]
      cases result with
      | error e => exact ⟨_, _, rfl, by simp, fun _ => ⟨_, rfl⟩⟩
      | ok count =>
          simp only [TaskRunner.report, hrest]
          refine ⟨reply, w' :: ws', rfl, ?_, fun hnot => hfailed ?_⟩
          · intro hall
            obtain ⟨rfl, hlength, hws'⟩ := hok hall.2
            exact ⟨rfl, by simp [hlength], by simpa [hresting] using hws'⟩
          · intro hall
            exact hnot ⟨⟨count, rfl⟩, hall⟩

/-- The pool can start a phase. -/
structure Ready (runner : TaskRunner) (n : Nat) (p : Pool (ProcessWorker AnyChild)) : Prop where
  state : p.state = .idle
  length : p.workers.length = n
  resting : ∀ w ∈ p.workers, Resting runner w

variable {p : Pool (ProcessWorker AnyChild)}

theorem runPhase_dispatched {ω σ : Type} [Worker ω σ] {p : Pool ω} {s s₁ s' : σ} {ws₁ ws' : List ω}
    {reply : Reply} (hstate : p.state = .idle) (hinputs : inputs.length = p.workers.length)
    (houtputs : outputs.length = p.workers.length)
    (hdispatch : dispatchAll kind p.workers (inputs.zip outputs) s = (.done, ws₁, s₁))
    (hawait : awaitAll p.taskTimeout ws₁ s₁ = (reply, ws', s')) :
    p.runPhase kind inputs outputs s
      = ((p.settle kind reply ws').1, (p.settle kind reply ws').2, s') := by
  simp only [runPhase, hinputs, houtputs, ne_eq, not_true_eq_false, or_self, if_false, hstate,
    hdispatch, hawait]

/-- A phase runs its tasks one after the other. -/
theorem runPhase_ready (h : Ready runner n p) (hinputs : inputs.length = n)
    (houtputs : outputs.length = n)
    (hsendable : ∀ path ∈ inputs ++ outputs, Command.isSendable path = true) (t : FileTree) :
    ∃ reply p', p.runPhase kind inputs outputs t
        = (reply, p', (runner.runEach t (tasksOf kind inputs outputs)).2)
      ∧ (AllOk (runner.runEach t (tasksOf kind inputs outputs)).1 →
          reply = .ok () ∧ Ready runner n p')
      ∧ (¬ AllOk (runner.runEach t (tasksOf kind inputs outputs)).1 →
          (∃ e, reply = .failed e) ∧ p'.state = .failed) := by
  obtain ⟨ws', hdispatch, hlength', hwaiting⟩ := dispatchAll_resting kind t h.resting
    (h.length.trans hinputs.symm) (h.length.trans houtputs.symm) hsendable
  obtain ⟨reply, ws'', hawait, hok, hfailed⟩ := awaitAll_waiting hwaiting p.taskTimeout
    (runner.runEach t (tasksOf kind inputs outputs)).2
  refine ⟨_, _, runPhase_dispatched h.state (hinputs.trans h.length.symm)
    (houtputs.trans h.length.symm) hdispatch hawait, ?_, ?_⟩
  · intro hall
    obtain ⟨rfl, hlength, hws⟩ := hok hall
    exact ⟨rfl, rfl, hlength.trans (hlength'.trans h.length), hws⟩
  · intro hnot
    obtain ⟨e, rfl⟩ := hfailed hnot
    exact ⟨⟨_, rfl⟩, rfl⟩

/-! ### Closing and opening -/

section

variable {ω σ : Type} {s : σ}

theorem callAll_done {sound : σ → Prop} {call : ω → σ → Reply × ω × σ} {ws : List ω}
    (h : ∀ w ∈ ws, ∀ s, sound s → ∃ w' s', call w s = (.done, w', s') ∧ sound s') (hs : sound s) :
    ∃ ws' s', callAll call ws s = (some [], ws', s') ∧ sound s' := by
  induction ws generalizing s with
  | nil => exact ⟨[], s, rfl, hs⟩
  | cons w ws ih =>
      obtain ⟨w', s₁, hcall, hs₁⟩ := h w (by simp) s hs
      obtain ⟨ws', s₂, hrest, hs₂⟩ := ih (fun w hw => h w (by simp [hw])) hs₁
      exact ⟨w' :: ws', s₂, by simp only [callAll, hcall, hrest], hs₂⟩

variable [Worker ω σ] {p : Pool ω}

theorem close_of_terminate {sound : σ → Prop} (hstate : p.state = .idle)
    (h : ∀ w ∈ p.workers, ∀ s, sound s →
      ∃ w' s', Worker.terminate w s = (.done, w', s') ∧ sound s') (hs : sound s) :
    ∃ ws' s', p.close s = (.ok (), ws', s') ∧ sound s' := by
  obtain ⟨ws', s', hcalls, hs'⟩ := callAll_done h hs
  exact ⟨ws', s', by simp only [close, hstate, PoolState.shutdown, hcalls], hs'⟩

theorem close_of_kill (hstate : p.state = .failed)
    (h : ∀ (w : ω) (s : σ), ∃ w', Worker.kill w s = (.done, w', s)) (s : σ) :
    ∃ ws', p.close s = (.ok (), ws', s) := by
  have hkill : ∀ w ∈ p.workers, ∀ s', s' = s →
      ∃ w' s'', Worker.kill w s' = (.done, w', s'') ∧ s'' = s := by
    rintro w - s' rfl
    obtain ⟨w', hcall⟩ := h w s'
    exact ⟨w', s', hcall, rfl⟩
  obtain ⟨ws', s', hcalls, rfl⟩ := callAll_done hkill rfl
  exact ⟨ws', by simp only [close, hstate, PoolState.shutdown, killAll, hcalls]; rfl⟩

theorem startAll_hired {start : Nat → σ → Except WorkerError ω × σ} {hires : Nat → ω → Prop}
    (hstart : ∀ index, ∃ w, start index s = (.ok w, s) ∧ hires index w) (ws : List ω)
    (index remaining : Nat) :
    ∃ hired, startAll start ws index s remaining = (.ok (ofWorkers (ws.reverse ++ hired)), s)
      ∧ List.Forall₂ hires (List.range' index remaining) hired := by
  induction remaining generalizing ws index with
  | zero => exact ⟨[], by simp [startAll], .nil⟩
  | succ remaining ih =>
      obtain ⟨w, hone, hw⟩ := hstart index
      obtain ⟨hired, hrest, hhired⟩ := ih (w :: ws) (index + 1)
      refine ⟨w :: hired, ?_, .cons hw hhired⟩
      rw [startAll, hone]
      simpa using hrest

theorem openWith_hired {start : Nat → σ → Except WorkerError ω × σ} {hires : Nat → ω → Prop}
    (hstart : ∀ index, ∃ w, start index s = (.ok w, s) ∧ hires index w) (hn : 0 < n) :
    ∃ hired, openWith n start s = (.ok (ofWorkers hired), s)
      ∧ List.Forall₂ hires (List.range n) hired := by
  obtain ⟨hired, hall, hhired⟩ := startAll_hired hstart [] 0 n
  rw [← List.range_eq_range'] at hhired
  exact ⟨hired, by rw [openWith, if_neg (Nat.ne_of_gt hn), hall]; rfl, hhired⟩

end

theorem close_ready (h : Ready runner n p) (t : FileTree) :
    ∃ ws', p.close t = (.ok (), ws', t) := by
  have hterminate : ∀ w ∈ p.workers, ∀ t', t' = t →
      ∃ w' t'', Worker.terminate w t' = (.done, w', t'') ∧ t'' = t := by
    rintro w hw t' rfl
    obtain ⟨w', hcall⟩ := LiveWorker.terminate_resting (h.resting w hw) t'
    exact ⟨w', t', hcall, rfl⟩
  obtain ⟨ws', t', hclose, rfl⟩ := close_of_terminate h.state hterminate rfl
  exact ⟨ws', hclose⟩

theorem openWith_ready
    {start : Nat → FileTree → Except WorkerError (ProcessWorker AnyChild) × FileTree}
    (hstart : ∀ index, ∃ w, start index t = (.ok w, t) ∧ Resting runner w) (hn : 0 < n) :
    ∃ p, openWith n start t = (.ok p, t) ∧ Ready runner n p := by
  obtain ⟨hired, hopen, hhired⟩ := openWith_hired hstart hn
  refine ⟨_, hopen, rfl, ?_, ?_⟩
  · rw [ofWorkers, ← hhired.length_eq, List.length_range]
  · intro w hw
    obtain ⟨_, -, hresting⟩ := exists_mem_of_forall₂ hhired hw
    exact hresting

end MapReduce.Pool
