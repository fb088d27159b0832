import MapReduce.Job
import MapReduce.Proofs.Frames
import MapReduce.Proofs.LiveWorker

/-!
# Confined workers

A worker has no business with any files but those that it is told of. It may write them whenever it
gets to it: when it is handed the task, when its result is awaited, or later still. Workers that run
the worker program, or follow a script, are confined in this way.
-/

namespace MapReduce

open FileTree (Touched)

/-- Between two states of the world at most these files have changed and those that were named before.
None have come to be named but these. -/
structure Writes {σ : Type} [HasFiles σ] (named : σ → List Path) (paths : List Path) (s s' : σ) :
    Prop where
  names : named s' ⊆ paths ++ named s
  touched : Touched (paths ++ named s) (HasFiles.files s) (HasFiles.files s')

/-- Workers that write only the files named in their commands; `named` tells which these are so far. -/
structure Confined {ω σ : Type} [Worker ω σ] [HasFiles σ] (named : σ → List Path)
    (start : Nat → σ → Except WorkerError ω × σ) : Prop where
  files_setFiles : ∀ t (s : σ), HasFiles.files (HasFiles.setFiles t s) = t
  named_setFiles : ∀ t (s : σ), named (HasFiles.setFiles t s) = named s
  start : ∀ index s, Writes named [] s (start index s).2
  dispatch : ∀ task (w : ω) s,
    Writes named [task.input, task.output] s (Worker.dispatch task w s).2.2
  awaitResult : ∀ bounded (w : ω) s, Writes named [] s (Worker.awaitResult bounded w s).2.2
  terminate : ∀ (w : ω) s, Writes named [] s (Worker.terminate w s).2.2
  kill : ∀ (w : ω) s, Writes named [] s (Worker.kill w s).2.2

/-- Workers that leave their inputs alone too: they write only the output files named in their
commands. -/
structure OutputsOnly {ω σ : Type} [Worker ω σ] [HasFiles σ] (named : σ → List Path)
    (start : Nat → σ → Except WorkerError ω × σ) : Prop extends Confined named start where
  dispatch_output : ∀ task (w : ω) s, Writes named [task.output] s (Worker.dispatch task w s).2.2

/-! ### Processes -/

theorem ScriptedChild.files_takeLine (line : Bytes) (child : ScriptedChild) (t : FileTree) :
    (child.takeLine line t).2.2 = t := by
  unfold takeLine
  split
  · rfl
  · rfl
  · rfl
  · split
    · rfl
    · split <;> rfl

theorem ScriptedChild.files_takeEnd (child : ScriptedChild) (t : FileTree) :
    (child.takeEnd t).2.2 = t := by
  cases child <;> rfl

/-- A live process carries out the task of its command line if it does anything. -/
theorem LiveChild.touched_takeLine {task : Task} (hinput : Command.isSendable task.input = true)
    (houtput : Command.isSendable task.output = true) (child : LiveChild) (t : FileTree) :
    Touched [task.output] t
      (child.takeLine (Bytes.ofString (Command.line (.run task))).terminate t).2.2 := by
  cases child with
  | exited status => exact .refl _ _
  | leaving status => exact .refl _ _
  | serving runner =>
      have hrun := runner.run_touched task t
      rw [takeLine, runner.serve_line hinput houtput]
      dsimp only
      split
      · exact hrun
      · exact hrun

theorem LiveChild.files_takeLine_done (child : LiveChild) (t : FileTree) :
    (child.takeLine (Bytes.ofString (Command.line .done)).terminate t).2.2 = t := by
  cases child with
  | exited status => rfl
  | leaving status => rfl
  | serving runner =>
      rw [takeLine, LiveWorker.serve_done]
      dsimp only
      split <;> rfl

namespace AnyChild

theorem touched_takeLine {task : Task} (hinput : Command.isSendable task.input = true)
    (houtput : Command.isSendable task.output = true) (child : AnyChild) (t : FileTree) :
    Touched [task.output] t
      (Child.takeLine (Bytes.ofString (Command.line (.run task))).terminate child t).2.2 := by
  cases child with
  | scripted child =>
      have hsame := child.files_takeLine (Bytes.ofString (Command.line (.run task))).terminate t
      exact hsame.symm ▸ .refl _ t
  | live child => exact child.touched_takeLine hinput houtput t

theorem files_takeLine_done (child : AnyChild) (t : FileTree) :
    (Child.takeLine (Bytes.ofString (Command.line .done)).terminate child t).2.2 = t := by
  cases child with
  | scripted child => exact child.files_takeLine _ t
  | live child => exact child.files_takeLine_done t

theorem files_takeEnd (child : AnyChild) (t : FileTree) : (Child.takeEnd child t).2.2 = t := by
  cases child with
  | scripted child => exact child.files_takeEnd t
  | live child => cases child <;> rfl

end AnyChild

namespace ProcessWorker

variable {χ σ : Type} [Child χ σ]

/-- The world changes as the process changes it that reads the command, if it reads it. -/
theorem snd_send (w : ProcessWorker χ) (command : Command) (s : σ) :
    (w.send command s).2.2 = s ∨ (w.send command s).2.2
      = (Child.takeLine (Bytes.ofString command.line).terminate w.child s).2.2 := by
  unfold send
  split
  · right
    rcases Child.takeLine (Bytes.ofString command.line).terminate w.child s with ⟨_ | _, _, _⟩ <;> rfl
  · exact Or.inl rfl

theorem touched_dispatch (task : Task) (w : ProcessWorker AnyChild) (t : FileTree) :
    Touched [task.output] t (w.dispatch task t).2.2 := by
  unfold dispatch
  split
  · exact .refl _ _
  · split
    · exact .refl _ _
    · next command hcommand =>
        obtain ⟨hinput, houtput, rfl⟩ := Command.ofTask_eq_ok_iff.mp hcommand
        have hsent : Touched [task.output] t (w.send (.run task) t).2.2 := by
          rcases w.snd_send (.run task) t with hsame | htaken
          · exact hsame.symm ▸ .refl _ t
          · exact htaken ▸ w.child.touched_takeLine hinput houtput t
        split
        · next hended => rwa [hended] at hsent
        · exact hsent

theorem files_send_done (w : ProcessWorker AnyChild) (t : FileTree) : (w.send .done t).2.2 = t := by
  rcases w.snd_send .done t with hsame | htaken
  · exact hsame
  · exact htaken.trans (w.child.files_takeLine_done t)

theorem files_terminate (w : ProcessWorker AnyChild) (t : FileTree) : (w.terminate t).2.2 = t := by
  unfold terminate
  split
  · rfl
  · rfl
  · have hsent := w.files_send_done t
    rcases hended : w.send .done t with ⟨_ | e | _, w', t'⟩
    all_goals rw [hended] at hsent
    · obtain rfl : t' = t := hsent
      have hend := w'.child.files_takeEnd t'
      rcases htaken : Child.takeEnd w'.child t' with ⟨reaction, child, t''⟩
      rw [htaken] at hend
      simp only [htaken]
      split <;> exact hend
    · exact hsent
    · exact hsent

end ProcessWorker

/-- **Processes are confined.** The workers that a job can be launched with change no file but the
output of a task that they are handed. -/
theorem Launch.confined (launch : Launch) : Confined (fun _ => []) launch.start := by
  have hnothing : ∀ {t t' : FileTree}, t' = t → Writes (fun _ => []) [] t t' := by
    rintro t _ rfl
    exact ⟨List.nil_subset _, .refl _ _⟩
  refine
    { files_setFiles := fun _ _ => rfl
      named_setFiles := fun _ _ => rfl
      start := fun index t => hnothing ?_
      dispatch := fun task w t =>
        ⟨List.nil_subset _, (w.touched_dispatch task t).mono (by simp)⟩
      awaitResult := fun bounded w t => hnothing ?_
      terminate := fun w t => hnothing (w.files_terminate t)
      kill := fun w t => hnothing ?_ }
  · cases launch with
    | script text => rfl
    | program path arguments =>
        rw [start]
        split <;> rfl
  · simp only [Worker.awaitResult, ProcessWorker.awaitResult]
    split <;> rfl
  · exact w.kill_shared t

theorem Launch.outputsOnly (launch : Launch) : OutputsOnly (fun _ => []) launch.start where
  toConfined := launch.confined
  dispatch_output task w t :=
    ⟨List.nil_subset _, (w.touched_dispatch task t).mono (List.subset_append_left _ _)⟩

end MapReduce
