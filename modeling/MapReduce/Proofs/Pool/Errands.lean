import MapReduce.Proofs.Confined
import MapReduce.Proofs.Grammar
import MapReduce.Proofs.Pool.Workshop

/-!
# Errands are confined

A process writes the output files of the tasks in the lines that it reads, and no others. So a workshop
is confined: until the processes have taken their turns, the files that may still be written are those
named in the lines in front of them.
-/

namespace MapReduce

open FileTree (Touched)

/-! ### What a line may change -/

namespace Command

/-- The files that a line asks to be written. -/
def outputsOfLine (line : Line UInt8) : List Path :=
  match (decodeLine line).map parse with
  | .ok (.ok (.run task)) => [task.output]
  | _ => []

/-- The files that are asked for in bytes written to a worker, line by line. -/
def outputs (bs : Bytes) : List Path :=
  (Line.split Bytes.newline bs).flatMap outputsOfLine

theorem outputs_task {task : Task} (hinput : isSendable task.input = true)
    (houtput : isSendable task.output = true) :
    outputs (Bytes.ofString (Command.run task).line).terminate = [task.output] := by
  have hheard := heard_line hinput houtput
  rw [heard, List.map_eq_singleton_iff] at hheard
  obtain ⟨line, hsplit, hline⟩ := hheard
  rw [outputs, hsplit, List.flatMap_singleton, outputsOfLine, hline]

theorem outputs_done : outputs (Bytes.ofString Command.done.line).terminate = [] := by
  decide +kernel

end Command

namespace TaskRunner

theorem touched_answer (runner : TaskRunner) {line : Line UInt8} {text : String}
    (htext : decodeLine line = .ok text) (t : FileTree) :
    Touched (Command.outputsOfLine line) t (runner.answer text t).2 := by
  rw [answer, Command.outputsOfLine, htext, Except.map]
  cases Command.parse text with
  | error e => exact .refl _ _
  | ok command =>
      cases command with
      | done => exact .refl _ _
      | run task =>
          have hrun := runner.run_touched task t
          dsimp only
          rcases hended : runner.run task t with ⟨e | n, t'⟩
          · rwa [hended] at hrun
          · rwa [hended] at hrun

theorem touched_serveLines (runner : TaskRunner) (out : Sink) (t : FileTree)
    (lines : List (Line UInt8)) :
    Touched (lines.flatMap Command.outputsOfLine) t (runner.serveLines out t lines).2.2 := by
  induction lines generalizing out t with
  | nil => exact .refl _ _
  | cons line lines ih =>
      rw [List.flatMap_cons, serveLines]
      cases htext : decodeLine line with
      | error fault => exact .refl _ _
      | ok text =>
          have hanswer := (runner.touched_answer htext t).mono
            (List.subset_append_left _ (lines.flatMap Command.outputsOfLine))
          rcases hended : runner.answer text t with ⟨_ | status, t'⟩
          all_goals
            rw [hended] at hanswer
            simp only [hended]
          · exact hanswer
          · rcases hwrite : out.writeLine status.line with ⟨e | _, out'⟩
            · exact hanswer
            · exact hanswer.trans ((ih out' t').mono (List.subset_append_right _ _))

/-- A session writes the outputs that are asked for in its input. -/
theorem touched_serve (runner : TaskRunner) (input : Bytes) (out : Sink) (t : FileTree) :
    Touched (Command.outputs input) t (runner.serve input out t).2.2 :=
  runner.touched_serveLines out t _

end TaskRunner

theorem LiveChild.touched_takeLine_outputs (line : Bytes) (child : LiveChild) (t : FileTree) :
    Touched (Command.outputs line) t (child.takeLine line t).2.2 := by
  cases child with
  | exited status => exact .refl _ _
  | leaving status => exact .refl _ _
  | serving runner =>
      have hserve := runner.touched_serve line .unbounded t
      rw [takeLine]
      rcases hended : runner.serve line .unbounded t with ⟨e | _, out, t'⟩
      all_goals rw [hended] at hserve
      · exact hserve
      · dsimp only
        split
        · exact hserve
        · exact hserve

/-! ### Workshops -/

theorem Writes.trans {σ : Type} [HasFiles σ] {named : σ → List Path} {s s' s'' : σ}
    (h : Writes named [] s s') (h' : Writes named [] s' s'') : Writes named [] s s'' where
  names := List.Subset.trans h'.names h.names
  touched := h.touched.trans (h'.touched.mono h.names)

namespace Workshop

variable {s : Workshop} {t : FileTree}

/-- The files that are asked for in the lines that nobody has read yet. -/
def named (s : Workshop) : List Path :=
  s.errands.flatMap fun errand => Command.outputs errand.line

theorem touched_takeTurn (s : Workshop) (errand : Errand) :
    Touched (Command.outputs errand.line) s.files (s.takeTurn errand).files :=
  errand.process.touched_takeLine_outputs errand.line s.files

theorem touched_turns (errands : List Errand) (s : Workshop) :
    Touched (errands.flatMap fun errand => Command.outputs errand.line) s.files
      (errands.foldl takeTurn s).files := by
  induction errands generalizing s with
  | nil => exact .refl _ _
  | cons errand errands ih =>
      rw [List.flatMap_cons]
      exact ((s.touched_takeTurn errand).mono (List.subset_append_left _ _)).trans
        ((ih (s.takeTurn errand)).mono (List.subset_append_right _ _))

theorem touched_settle (s : Workshop) : Touched s.named s.files s.settle.files := by
  have hperm := s.schedule.perm s.errands
  refine (touched_turns (s.schedule.arrange s.errands) { s with errands := [] }).mono ?_
  exact (hperm.flatMap_right fun errand => Command.outputs errand.line).subset

theorem files_collect (s : Workshop) (handle : Handle) : (s.collect handle).2.2.files = s.files := by
  unfold collect
  split <;> rfl

theorem errands_collect (s : Workshop) (handle : Handle) :
    (s.collect handle).2.2.errands = s.errands := by
  unfold collect
  split <;> rfl

theorem writes_refl (paths : List Path) (s : Workshop) : Writes named paths s s :=
  ⟨List.subset_append_right _ _, .refl _ _⟩

/-- When everybody has taken a turn, nothing is left to be written. -/
theorem writes_collect (s : Workshop) (handle : Handle) :
    Writes named [] s (s.settle.collect handle).2.2 := by
  constructor
  · have hnone : named (s.settle.collect handle).2.2 = [] := by
      rw [named, errands_collect, errands_settle, List.flatMap_nil]
    rw [hnone]
    exact List.nil_subset _
  · have hfiles : HasFiles.files (s.settle.collect handle).2.2 = s.settle.files :=
      files_collect _ _
    rw [hfiles]
    exact s.touched_settle

end Workshop

namespace Handle

theorem writes_takeLine (line : Bytes) (handle : Handle) (s : Workshop) :
    Writes Workshop.named (Command.outputs line) s (handle.takeLine line s).2.2 := by
  unfold takeLine
  split
  · exact s.writes_refl _
  · refine ⟨?_, .refl _ _⟩
    simp only [Workshop.named, List.flatMap_append, List.flatMap_singleton]
    exact (List.perm_append_comm).subset

theorem writes_takeEnd (handle : Handle) (s : Workshop) :
    Writes Workshop.named [] s (handle.takeEnd s).2.2 := by
  have hcollect := s.writes_collect handle
  unfold takeEnd
  rcases hheard : s.settle.collect handle with ⟨heard, handle', s'⟩
  rw [hheard] at hcollect
  have hend : (handle'.process.takeEnd s'.files).2.2 = s'.files := by
    cases handle'.process <;> rfl
  refine ⟨hcollect.names, ?_⟩
  have hfiles : HasFiles.files { s' with files := (handle'.process.takeEnd s'.files).2.2 }
      = HasFiles.files s' := hend
  exact hfiles ▸ hcollect.touched

end Handle

namespace Hand

theorem writes_dispatch (task : Task) (w : ProcessWorker Handle) (s : Workshop) :
    Writes Workshop.named [task.output] s (w.dispatch task s).2.2 := by
  unfold ProcessWorker.dispatch
  split
  · exact s.writes_refl _
  · split
    · exact s.writes_refl _
    · next command hcommand =>
        obtain ⟨hinput, houtput, rfl⟩ := Command.ofTask_eq_ok_iff.mp hcommand
        have hsent : Writes Workshop.named [task.output] s (w.send (.run task) s).2.2 := by
          rcases w.snd_send (.run task) s with hsame | htaken
          · exact hsame.symm ▸ s.writes_refl _
          · rw [htaken, ← Command.outputs_task hinput houtput]
            exact w.child.writes_takeLine _ s
        split
        · next hended => rwa [hended] at hsent
        · exact hsent

theorem writes_send_done (w : ProcessWorker Handle) (s : Workshop) :
    Writes Workshop.named [] s (w.send .done s).2.2 := by
  rcases w.snd_send .done s with hsame | htaken
  · exact hsame.symm ▸ s.writes_refl _
  · rw [htaken, ← Command.outputs_done]
    exact w.child.writes_takeLine _ s

theorem writes_terminate (w : ProcessWorker Handle) (s : Workshop) :
    Writes Workshop.named [] s (w.terminate s).2.2 := by
  unfold ProcessWorker.terminate
  split
  · exact s.writes_refl _
  · exact s.writes_refl _
  · have hsent := writes_send_done w s
    rcases hended : w.send .done s with ⟨_ | e | _, w', s'⟩
    all_goals rw [hended] at hsent
    · have hend := hsent.trans (w'.child.writes_takeEnd s')
      simp only [Child.takeEnd]
      rcases htaken : w'.child.takeEnd s' with ⟨reaction, child, s''⟩
      rw [htaken] at hend
      simp only
      split <;> exact hend
    · exact hsent
    · exact hsent

theorem writes_awaitResult (bounded : Bool) (w : Hand) (s : Workshop) :
    Writes Workshop.named [] s (w.awaitResult bounded s).2.2 := by
  have hcollect := s.writes_collect w.worker.child
  unfold awaitResult
  rcases hheard : s.settle.collect w.worker.child with ⟨reaction, handle, s'⟩
  rw [hheard] at hcollect
  have hsame (v : ProcessWorker Handle) : (v.awaitResult bounded s').2.2 = s' := by
    unfold ProcessWorker.awaitResult
    split <;> rfl
  simp only [call, hsame]
  exact hcollect

end Hand

/-- **A workshop is confined.** Whatever the program is and whoever takes a turn after whom, its processes
change no file but the outputs of the tasks that they are handed. -/
theorem Workshop.confined (program : Path) (arguments : List Bytes) (how : CommandLine.WorkerStart) :
    Confined Workshop.named (Workshop.start program arguments how) where
  files_setFiles _ _ := rfl
  named_setFiles _ _ := rfl
  start index s := by
    unfold Workshop.start
    split
    · exact s.writes_refl _
    · exact s.writes_refl _
  dispatch task w s := by
    have hdispatch := Hand.writes_dispatch task w.worker s
    exact ⟨List.Subset.trans hdispatch.names (by simp), hdispatch.touched.mono (by simp)⟩
  awaitResult bounded w s := Hand.writes_awaitResult bounded w s
  terminate w s := Hand.writes_terminate w.worker s
  kill w s := by
    obtain ⟨w', hkill⟩ := Hand.kill_eq w s
    rw [hkill]
    exact s.writes_refl _

end MapReduce
