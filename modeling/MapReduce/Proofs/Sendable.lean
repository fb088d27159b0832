import MapReduce.Proofs.Grammar
import MapReduce.Proofs.Handover
import MapReduce.Proofs.Tokens

/-!
# The layout of a job in commands

No two intermediate files of a job have the same last name, so none is another one's, and every task
has files of its own. A task can be sent exactly if the directory of the job is a text without white
space, and then a worker is told of these very files.
-/

namespace MapReduce

/-! ### The directory of a path that can be sent -/

namespace Utf8

variable {c d : Char} {cs ds : List Char} {above rest : Bytes}

/-- Before any ASCII character of a text there is a text. -/
theorem isText_of_append_ascii (hd : d.toNat < 0x80)
    (h : encode cs = above ++ UInt8.ofNat d.toNat :: rest) : IsText above := by
  induction cs generalizing above with
  | nil =>
      rw [encode, List.flatMap_nil] at h
      simp at h
  | cons c cs ih =>
      rw [encode_cons] at h
      rcases List.append_eq_append_iff.mp h with ⟨above', rfl, hrest⟩ | ⟨part, hpart, hrest⟩
      · obtain ⟨ds, rfl⟩ := ih hrest
        exact ⟨c :: ds, encode_cons c ds⟩
      · cases part with
        | nil =>
            rw [List.append_nil] at hpart
            exact ⟨[c], by rw [encode_cons, hpart]; exact List.append_nil _⟩
        | cons b part =>
            obtain rfl : UInt8.ofNat d.toNat = b := (List.cons.inj hrest).1
            -- the ASCII byte is in the bytes of `c`, so it is all of them
            have hc : c.toNat < 0x80 := by
              by_contra hc
              have hle := le_toNat_of_mem_encodeChar hc
                (hpart ▸ List.mem_append_right _ List.mem_cons_self)
              rw [toNat_byteOfNat (by omega)] at hle
              omega
            rw [encodeChar_ascii hc] at hpart
            cases above with
            | nil => exact isText_encode []
            | cons a above => simp at hpart

theorem exists_of_encode_eq_append (hd : d.toNat < 0x80) (h : encode cs = above ++ encode (d :: ds)) :
    ∃ start, above = encode start ∧ cs = start ++ d :: ds := by
  obtain ⟨start, rfl⟩ : IsText above := by
    rw [encode_cons, encodeChar_ascii hd, List.singleton_append] at h
    exact isText_of_append_ascii hd h
  rw [← encode_append] at h
  exact ⟨start, rfl, encode_injective h⟩

end Utf8

namespace Path

variable {path directory : Path} {d : Char} {ds : List Char}

theorem Unblank.of_append (hd : d.toNat < 0x80) (h : Unblank (path ++ Utf8.encode (d :: ds))) :
    Unblank path := by
  obtain ⟨cs, hcs, hblank⟩ := h
  obtain ⟨start, rfl, rfl⟩ := Utf8.exists_of_encode_eq_append hd hcs.symm
  exact ⟨start, rfl, fun c hc => hblank c (List.mem_append_left _ hc)⟩

theorem Unblank.of_join (hd : d.toNat < 0x80)
    (h : Unblank (Path.join directory (Utf8.encode (d :: ds)))) :
    Unblank directory := by
  unfold Path.join at h
  split at h
  · next hempty =>
      rw [List.isEmpty_iff.mp hempty]
      exact ⟨[], rfl, by simp⟩
  · split at h
    · exact h.of_append hd
    · have hslash : Bytes.slash :: Utf8.encode (d :: ds) = Utf8.encode ('/' :: d :: ds) := by
        rw [Utf8.encode_cons '/']
        rfl
      rw [hslash] at h
      exact h.of_append (by decide)

theorem unblank_of_isSendable (h : Command.isSendable path = true) : path.Unblank := by
  obtain ⟨cs, hcs, -, hblank⟩ := Command.isSendable_iff.mp h
  exact ⟨cs, hcs, hblank⟩

end Path

namespace JobLayout

variable {directory : Path} {n : Nat} {stage : String}

/-- The name of an intermediate file begins with an ASCII letter. -/
theorem exists_fileName_eq (hstage : stage ∈ stages) (i : Nat) :
    ∃ d ds, d.toNat < 0x80 ∧ fileName stage i = Utf8.encode (d :: ds) := by
  have hletter : ∀ stage ∈ stages, ∃ d ds, d.toNat < 0x80 ∧ stage.toList = d :: ds := by
    simp only [stages, List.forall_mem_cons]
    refine ⟨⟨'m', "ap-input".toList, by decide, rfl⟩, ⟨'m', "ap-output".toList, by decide, rfl⟩,
      ⟨'r', "educe-input".toList, by decide, rfl⟩, ⟨'r', "educe-output".toList, by decide, rfl⟩, ?_⟩
    simp
  obtain ⟨d, ds, hd, hletters⟩ := hletter stage hstage
  refine ⟨d, ds ++ '-' :: Text.showCount i, hd, ?_⟩
  rw [fileName, Bytes.ofString, hletters, ← List.cons_append, Utf8.encode_append, Utf8.encode_cons '-']
  rfl

theorem isSendable_file_iff (hstage : stage ∈ stages) (directory : Path) (i : Nat) :
    Command.isSendable (Path.join directory (fileName stage i)) = true ↔ directory.Unblank := by
  constructor
  · intro h
    obtain ⟨d, ds, hd, hname⟩ := exists_fileName_eq hstage i
    have hpath := Path.unblank_of_isSendable h
    rw [hname] at hpath
    exact hpath.of_join hd
  · intro h
    refine isSendable_of_mem_files (n := i + 1) h hstage ?_
    exact List.mem_map.mpr ⟨i, by simp, rfl⟩

/-! ### Files of one's own -/

def paths (layout : JobLayout) : List Path :=
  layout.mapInputs ++ layout.mapOutputs ++ layout.reduceInputs ++ layout.reduceOutputs

theorem paths_within (directory : Path) (n : Nat) :
    (within directory n).paths = stages.flatMap (files directory n) := by
  simp [paths, within, stages]

/-- What two files in one directory have in common if their names differ, any two files have. -/
theorem pairwise_paths {R : Path → Path → Prop} (directory : Path) (n : Nat)
    (hR : ∀ name name' : Bytes, Path.Plain name → Path.Plain name' → name ≠ name' →
      R (Path.join directory name) (Path.join directory name')) :
    (within directory n).paths.Pairwise R := by
  rw [paths_within, List.pairwise_flatMap]
  constructor
  · intro stage hstage
    rw [files, List.pairwise_map]
    refine List.nodup_range.imp fun hij => hR _ _ (plain_fileName hstage _) (plain_fileName hstage _) ?_
    exact fun h => hij (fileName_inj h).2
  · have hnodup : stages.Nodup := by decide
    refine List.Pairwise.imp_of_mem ?_ hnodup
    intro stage stage' hstage hstage' hne p hp q hq
    obtain ⟨i, -, rfl⟩ := List.mem_map.mp hp
    obtain ⟨j, -, rfl⟩ := List.mem_map.mp hq
    refine hR _ _ (plain_fileName hstage i) (plain_fileName hstage' j) fun h => hne ?_
    exact String.toList_injective (Utf8.encode_injective (fileName_inj h).1)

theorem pairwise_separate_paths (t : FileTree) (directory : Path) (n : Nat) :
    (within directory n).paths.Pairwise t.Separate :=
  pairwise_paths directory n fun _ _ h h' hne => FileTree.separate_join t directory h h' hne

theorem nodup_lastNames (directory : Path) (n : Nat) :
    ((within directory n).paths.map fun path => path.names.getLast?).Nodup := by
  rw [List.Nodup, List.pairwise_map]
  refine pairwise_paths directory n fun name name' h h' hne heq => hne ?_
  rw [Path.names_join h, Path.names_join h', List.getLast?_concat, List.getLast?_concat] at heq
  exact Option.some.inj heq

/-! ### Tasks -/

/-- The tasks of a phase, in the order of the workers. -/
def tasks (layout : JobLayout) : TaskKind → List Task
  | .map => tasksOf .map layout.mapInputs layout.mapOutputs
  | .reduce => tasksOf .reduce layout.reduceInputs layout.reduceOutputs

def taskOf (directory : Path) (kind : TaskKind) (i : Nat) : Task :=
  ⟨kind, Path.join directory (fileName (kind.name ++ "-input") i),
    Path.join directory (fileName (kind.name ++ "-output") i)⟩

theorem tasks_within (directory : Path) (n : Nat) (kind : TaskKind) :
    (within directory n).tasks kind = (List.range n).map (taskOf directory kind) := by
  cases kind <;>
    simp [tasks, within, tasksOf, files, taskOf, TaskKind.name, List.zipWith_map, List.zipWith_self]

theorem name_append_mem_stages (kind : TaskKind) :
    kind.name ++ "-input" ∈ stages ∧ kind.name ++ "-output" ∈ stages := by
  cases kind <;> decide

theorem ofTask_taskOf_iff (directory : Path) (kind : TaskKind) (i : Nat) :
    (∃ command, Command.ofTask (taskOf directory kind i) = .ok command) ↔ directory.Unblank := by
  obtain ⟨hinput, houtput⟩ := name_append_mem_stages kind
  simp only [Command.ofTask_eq_ok_iff, taskOf, isSendable_file_iff hinput, isSendable_file_iff houtput]
  simp

/-- **The layout of a job.** No two of its paths are equal or lead to the same file, whatever is where.
All tasks can be sent exactly if there are none or the directory is a text without white space, and then
the worker reads and hears of each command what was to be said. -/
theorem within_sendable (directory : Path) (n : Nat) :
    ((within directory n).mapInputs.length = n ∧ (within directory n).mapOutputs.length = n
        ∧ (within directory n).reduceInputs.length = n ∧ (within directory n).reduceOutputs.length = n)
      ∧ (within directory n).paths.Nodup
      ∧ (∀ t : FileTree, (within directory n).paths.Pairwise t.Separate)
      ∧ (∀ kind, ((within directory n).tasks kind).length = n)
      ∧ ((∀ kind, ∀ task ∈ (within directory n).tasks kind,
            ∃ command, Command.ofTask task = .ok command) ↔ n = 0 ∨ directory.Unblank)
      ∧ (directory.Unblank → ∀ kind, ∀ task ∈ (within directory n).tasks kind,
          Command.ofTask task = .ok (.run task)
            ∧ Command.parse (Command.run task).line = .ok (.run task)
            ∧ Command.heard (Bytes.ofString (Command.run task).line).terminate
                = [.ok (.ok (.run task))]) := by
  refine ⟨by simp [within], (nodup_lastNames directory n).of_map _,
    fun t => pairwise_separate_paths t directory n, by simp [tasks_within], ?_, ?_⟩
  · simp only [tasks_within, List.forall_mem_map, ofTask_taskOf_iff, List.mem_range]
    rcases Nat.eq_zero_or_pos n with rfl | hn
    · simp
    · constructor
      · intro h
        exact .inr (h .map 0 hn)
      · rintro (rfl | h)
        · exact absurd hn (Nat.lt_irrefl 0)
        · exact fun _ _ _ => h
  · intro hdirectory kind task htask
    rw [tasks_within] at htask
    obtain ⟨i, -, rfl⟩ := List.mem_map.mp htask
    obtain ⟨command, hcommand⟩ := (ofTask_taskOf_iff directory kind i).mpr hdirectory
    obtain ⟨hinput, houtput, rfl⟩ := Command.ofTask_eq_ok_iff.mp hcommand
    exact ⟨hcommand, Command.parse_line hinput houtput, Command.heard_line hinput houtput⟩

/-- A directory that is not ASCII and ends in a slash. -/
theorem within_sendable_work :
    (within (Bytes.ofString "/tmp/wörk/") 2).tasks .reduce
        = [⟨.reduce, Bytes.ofString "/tmp/wörk/reduce-input-0", Bytes.ofString "/tmp/wörk/reduce-output-0"⟩,
          ⟨.reduce, Bytes.ofString "/tmp/wörk/reduce-input-1", Bytes.ofString "/tmp/wörk/reduce-output-1"⟩]
      ∧ ∀ task ∈ (within (Bytes.ofString "/tmp/wörk/") 2).tasks .reduce,
          Command.parse (Command.run task).line = .ok (.run task) := by
  have hdirectory : Path.Unblank (Bytes.ofString "/tmp/wörk/") := Path.unblank_ofString (by decide)
  have hsent := (within_sendable (Bytes.ofString "/tmp/wörk/") 2).2.2.2.2.2 hdirectory
  exact ⟨by decide +kernel, fun task htask => (hsent .reduce task htask).2.1⟩

end JobLayout

end MapReduce
