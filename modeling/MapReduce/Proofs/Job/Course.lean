import MapReduce.Job

/-!
# The course of a job

A job that succeeds has come through all its steps: each of them succeeded, on what the steps before
had left, and its report says what they gave.
-/

namespace MapReduce

/-! ### The states it enters -/

namespace JobProgress

variable {clock : JobState → Duration} {next last : JobState} {states : List JobState}

/-- Enters the states one after another. -/
def through (clock : JobState → Duration) (states : List JobState) (p : JobProgress) : JobProgress :=
  states.foldl (fun p next => p.advance clock next) p

/-- The states that have been entered, the one that has not been left included. -/
def visited (p : JobProgress) : List JobState :=
  p.timings.map StateTiming.state ++ if p.state = .pending then [] else [p.state]

theorem visited_pending (clock : JobState → Duration) : (pending clock).visited = [] :=
  rfl

theorem visited_advance (h : next ≠ .pending) (p : JobProgress) :
    (p.advance clock next).visited = p.visited ++ [next] := by
  by_cases hpending : p.state = .pending
  · simp [visited, advance, h, hpending]
  · simp [visited, advance, timing, h, hpending]

theorem visited_through (clock : JobState → Duration) (h : .pending ∉ states) (p : JobProgress) :
    (p.through clock states).visited = p.visited ++ states := by
  induction states generalizing p with
  | nil => simp [through]
  | cons next rest ih =>
      have hnext : next ≠ .pending := fun heq => h (heq ▸ List.mem_cons_self)
      have hrest := ih (fun hmem => h (List.mem_cons_of_mem _ hmem)) (p.advance clock next)
      calc
        (p.through clock (next :: rest)).visited
            = ((p.advance clock next).through clock rest).visited := rfl
        _ = p.visited ++ [next] ++ rest := by rw [hrest, visited_advance hnext]
        _ = p.visited ++ next :: rest := (List.append_cons _ _ _).symm

/-- All states but the last have been left, so their times are recorded. -/
theorem timings_through (h : .pending ∉ states) (hlast : last ≠ .pending) :
    ((pending clock).through clock (states ++ [last])).timings.map StateTiming.state = states := by
  have hentered : .pending ∉ states ++ [last] := by simpa using ⟨h, hlast.symm⟩
  have hvisited := visited_through clock hentered (pending clock)
  have hstate : ((pending clock).through clock (states ++ [last])).state = last := by
    rw [through, List.foldl_append]
    rfl
  rw [visited, hstate, if_neg hlast, visited_pending, List.nil_append] at hvisited
  exact List.append_cancel_right hvisited

end JobProgress

/-! ### Its steps -/

namespace Job

variable {ω σ : Type} [HasFiles σ] [Worker ω σ]

/-- What a job that succeeds had when each of its steps was over. -/
structure Course (start : Nat → σ → Except WorkerError ω × σ) (clock : JobState → Duration)
    (config : JobConfig) (s : σ) (report : JobReport) (s' : σ) where
  directory : Path
  passing : Bool
  /-- The files when the directory for intermediate files had been made. -/
  prepared : FileTree
  sharded : FileTree
  opened : Pool ω × σ
  mapped : Pool ω × σ
  shuffled : FileTree
  reduced : Pool ω × σ
  closed : List ω × σ
  combined : FileTree
  prepare_eq : prepare config.workdir (HasFiles.files s) = .ok (directory, passing, prepared)
  shard_eq : Shard.run config.input (JobLayout.within directory config.workers).mapInputs
    (HasFiles.files (HasFiles.setFiles prepared s)) = (.ok report.shardLines, sharded)
  open_eq : Pool.openWith config.workers start
    (HasFiles.setFiles sharded (HasFiles.setFiles prepared s)) = (.ok opened.1, opened.2)
  map_eq : (opened.1.withTaskTimeout config.taskTimeout).runPhase .map
    (JobLayout.within directory config.workers).mapInputs
    (JobLayout.within directory config.workers).mapOutputs opened.2 = (.ok (), mapped)
  shuffle_eq : Shuffle.run keyHash (JobLayout.within directory config.workers).mapOutputs
    (JobLayout.within directory config.workers).reduceInputs (HasFiles.files mapped.2)
      = (.ok report.partitionRecords, shuffled)
  reduce_eq : mapped.1.runPhase .reduce (JobLayout.within directory config.workers).reduceInputs
    (JobLayout.within directory config.workers).reduceOutputs
    (HasFiles.setFiles shuffled mapped.2) = (.ok (), reduced)
  close_eq : reduced.1.close reduced.2 = (.ok (), closed)
  combine_eq : Combine.intoFile (JobLayout.within directory config.workers).reduceOutputs
    config.output (HasFiles.files closed.2) = (.ok report.outputBytes, combined)
  inputLines_eq : report.inputLines = JobReport.total report.shardLines
  shuffledRecords_eq : report.shuffledRecords = JobReport.total report.partitionRecords
  timings_eq : report.timings = ((JobProgress.pending clock).through clock
    [.sharding, .mapping, .shuffling, .reducing, .combining, .completed]).timings
  left_eq : s' = HasFiles.setFiles
    (cleanUp directory passing (HasFiles.files (HasFiles.setFiles combined closed.2)))
    (HasFiles.setFiles combined closed.2)

variable {start : Nat → σ → Except WorkerError ω × σ} {clock : JobState → Duration}
  {config : JobConfig} {layout : JobLayout} {pool pool' : Pool ω} {s s' : σ} {counts : List Nat}
  {progress progress' : JobProgress} {report : JobReport}

theorem runPhases_eq_ok
    (h : runPhases layout clock progress pool s = (.ok (counts, progress'), pool', s')) :
    progress' = progress.through clock [.shuffling, .reducing] ∧ ∃ (mapped : Pool ω × σ) (t : FileTree),
      pool.runPhase .map layout.mapInputs layout.mapOutputs s = (.ok (), mapped)
        ∧ Shuffle.run keyHash layout.mapOutputs layout.reduceInputs (HasFiles.files mapped.2)
          = (.ok counts, t)
        ∧ mapped.1.runPhase .reduce layout.reduceInputs layout.reduceOutputs
          (HasFiles.setFiles t mapped.2) = (.ok (), pool', s') := by
  rw [runPhases] at h
  rcases hmap : pool.runPhase .map layout.mapInputs layout.mapOutputs s with ⟨_ | e | _, pool₁, s₁⟩
  all_goals simp only [hmap] at h
  · rcases hshuffle : Shuffle.run keyHash layout.mapOutputs layout.reduceInputs (HasFiles.files s₁)
      with ⟨e | counts', t⟩
    all_goals simp only [hshuffle] at h
    · cases h
    rcases hreduce : pool₁.runPhase .reduce layout.reduceInputs layout.reduceOutputs
      (HasFiles.setFiles t s₁) with ⟨_ | e | _, pool₂, s₂⟩
    all_goals
      rw [hreduce] at h
      cases h
    exact ⟨rfl, (pool₁, s₁), t, rfl, hshuffle, hreduce⟩
  · cases h
  · cases h

theorem runPool_eq_ok (h : runPool layout clock progress pool s = (.ok (counts, progress'), s')) :
    ∃ (reduced : Pool ω × σ) (workers : List ω),
      runPhases layout clock progress pool s = (.ok (counts, progress'), reduced)
        ∧ reduced.1.close reduced.2 = (.ok (), workers, s') := by
  rw [runPool] at h
  rcases hphases : runPhases layout clock progress pool s with ⟨counts' | e | _, pool₁, s₁⟩
  all_goals simp only [hphases] at h
  · rcases hclose : pool₁.close s₁ with ⟨_ | e | _, workers, s₂⟩
    all_goals
      rw [hclose] at h
      cases h
    exact ⟨(pool₁, s₁), workers, rfl, hclose⟩
  · rcases hclose : pool₁.close s₁ with ⟨_ | e' | _, workers, s₂⟩
    all_goals
      rw [hclose] at h
      cases h
  · cases h

/-- Every job that succeeds has such a course. -/
theorem exists_course (h : run start clock config s = (.ok report, s')) :
    Nonempty (Course start clock config s report s') := by
  rw [run] at h
  rcases hprepare : prepare config.workdir (HasFiles.files s) with e | ⟨directory, passing, t₀⟩
  all_goals simp only [hprepare] at h
  · cases h
  rcases hwithin : runWithin directory start clock (.pending clock) config (HasFiles.setFiles t₀ s)
    with ⟨outcome, s₃⟩
  rw [hwithin] at h
  obtain ⟨rfl, hleft⟩ := Prod.mk.inj h
  rw [runWithin] at hwithin
  rcases hshard : Shard.run config.input (JobLayout.within directory config.workers).mapInputs
    (HasFiles.files (HasFiles.setFiles t₀ s)) with ⟨e | shardLines, t₁⟩
  all_goals simp only [hshard] at hwithin
  · cases hwithin
  rcases hopen : Pool.openWith config.workers start
    (HasFiles.setFiles t₁ (HasFiles.setFiles t₀ s)) with ⟨pool | e | _, s₁⟩
  all_goals simp only [hopen] at hwithin
  · rcases hpool : runPool (JobLayout.within directory config.workers) clock
      (((JobProgress.pending clock).advance clock .sharding).advance clock .mapping)
      (pool.withTaskTimeout config.taskTimeout) s₁ with ⟨⟨records, progress⟩ | e | _, s₂⟩
    all_goals simp only [hpool] at hwithin
    · rcases hcombine : Combine.intoFile (JobLayout.within directory config.workers).reduceOutputs
        config.output (HasFiles.files s₂) with ⟨e | bytes, t₃⟩
      all_goals
        simp only [hcombine] at hwithin
        cases hwithin
      obtain ⟨reduced, workers, hphases, hclose⟩ := runPool_eq_ok hpool
      obtain ⟨rfl, mapped, t₂, hmap, hshuffle, hreduce⟩ := runPhases_eq_ok hphases
      exact ⟨⟨directory, passing, t₀, t₁, (pool, s₁), mapped, t₂, reduced, (workers, s₂), t₃,
        hprepare, hshard, hopen, hmap, hshuffle, hreduce, hclose, hcombine, rfl, rfl, rfl,
        hleft.symm⟩⟩
    · cases hwithin
    · cases hwithin
  · cases hwithin
  · cases hwithin

end Job

end MapReduce
