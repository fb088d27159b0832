import MapReduce.Combine
import MapReduce.Proofs.OutputFiles
import MapReduce.Shuffle
import MapReduce.TaskRun

/-!
# What the stages leave alone

Sharding, shuffling, joining and the tasks of the workers change the tree at the files that they write
and nowhere else. They may fail at any point: what they have done by then is as confined.
-/

namespace MapReduce

open FileTree (Rewritten Touched)

variable {t t' t'' : FileTree}

theorem FileTree.Touched.rewritten {paths : List Path} {places : List Location}
    (h : Touched paths t t')
    (hplaces : ∀ place ∈ places, ∃ path ∈ paths, t.resolve path = .ok place)
    (hrew : Rewritten places t' t'') : Touched paths t t'' := by
  refine h.trans ⟨places, ?_, hrew⟩
  intro place hplace
  obtain ⟨path, hpath, hresolve⟩ := hplaces place hplace
  exact ⟨path, hpath, (h.resolve path place).mpr hresolve⟩

theorem FileTree.touched_of_create {path : Path} {place : Location}
    (h : t.create path = .ok (place, t')) (offset : Nat) (bs : Bytes) :
    Touched [path] t (t'.writeAt place offset bs) := by
  obtain ⟨hresolve, hrew, -⟩ := create_eq_ok h
  exact .of_resolve hresolve (hrew.trans (rewritten_writeAt t' place offset bs))

theorem FileTree.not_endsInSlash_of_create {t t' : FileTree} {path : Path} {place : Location}
    (h : t.create path = .ok (place, t')) : path.endsInSlash = false := by
  rw [create] at h
  split at h
  · obtain ⟨_, -, h⟩ := bind_eq_ok.mp h
    cases h
  · next hslash => exact eq_false_of_ne_true hslash

/-! ### Open files -/

namespace OutputFile

/-- What was done to an open file has changed the tree at its place only. -/
structure Confines (file : OutputFile) (t : FileTree) (ended : OutputFile × FileTree) : Prop where
  place : ended.1.place = file.place
  rewritten : Rewritten [file.place] t ended.2

theorem confines_deliver (file : OutputFile) (writer : BlockWriter) (t : FileTree) :
    file.Confines t (deliver { file with writer } t) := by
  unfold deliver
  split
  · exact ⟨rfl, .refl _ _⟩
  · exact ⟨rfl, FileTree.rewritten_writeAt t file.place _ _⟩

theorem confines_writeLine (file : OutputFile) (line : Bytes) (t : FileTree) :
    file.Confines t (file.writeLine line t).2 := by
  rw [writeLine]
  split
  · exact file.confines_deliver _ t
  · exact file.confines_deliver _ t

theorem confines_flush (file : OutputFile) (t : FileTree) :
    file.Confines t (file.flush t).2 := by
  rw [flush]
  split
  · exact file.confines_deliver _ t
  · exact file.confines_deliver _ t

theorem rewritten_close (file : OutputFile) (t : FileTree) :
    Rewritten [file.place] t (file.close t) :=
  (file.confines_deliver file.writer.release.2 t).rewritten

end OutputFile

namespace OutputFiles

/-- What was done to open files has changed the tree at their places only. -/
structure Confine (files : OutputFiles) (t : FileTree) (ended : OutputFiles × FileTree) : Prop where
  places : ended.1.places = files.places
  rewritten : Rewritten files.places t ended.2

variable {file : OutputFile} {files : OutputFiles} {ended ended' : OutputFiles × FileTree}

theorem Confine.refl (files : OutputFiles) (t : FileTree) : files.Confine t (files, t) :=
  ⟨rfl, .refl _ _⟩

theorem Confine.trans (h : files.Confine t ended) (h' : ended.1.Confine ended.2 ended') :
    files.Confine t ended' :=
  ⟨h'.places.trans h.places, h.rewritten.trans (h.places ▸ h'.rewritten)⟩

theorem Confine.head {changed : OutputFile × FileTree} (h : file.Confines t changed)
    (files : OutputFiles) : Confine (file :: files) t (changed.1 :: files, changed.2) :=
  ⟨congrArg (· :: files.places) h.place, h.rewritten.mono (by simp [OutputFiles.places])⟩

theorem Confine.tail (h : files.Confine t ended) (file : OutputFile) :
    Confine (file :: files) t (file :: ended.1, ended.2) :=
  ⟨congrArg (file.place :: ·) h.places, h.rewritten.mono (List.subset_cons_self _ _)⟩

theorem confine_writeLine (index : Nat) (line : Bytes) (t : FileTree) (files : OutputFiles) :
    files.Confine t (files.writeLine index line t).2 := by
  induction files generalizing index with
  | nil =>
      rw [writeLine]
      exact .refl _ _
  | cons file files ih =>
      cases index with
      | zero => exact .head (file.confines_writeLine line t) files
      | succ index => exact (ih index).tail file

theorem confine_writeCounted (index : Nat) (line : Bytes) (counts : List Nat) (t : FileTree)
    (files : OutputFiles) : files.Confine t (files.writeCounted index line counts t).2 := by
  have hline := confine_writeLine index line t files
  rw [writeCounted]
  cases checkIndex files.length index with
  | error e => exact .refl _ _
  | ok _ =>
      rcases hwrite : files.writeLine index line t with ⟨e | _, files', t'⟩
      all_goals
        rw [hwrite] at hline
        exact hline

theorem confine_flush (files : OutputFiles) (t : FileTree) :
    files.Confine t (files.flush t).2 := by
  induction files generalizing t with
  | nil => exact .refl _ _
  | cons file files ih =>
      have hfile := file.confines_flush t
      rcases hflush : file.flush t with ⟨e | _, file', t'⟩
      all_goals
        rw [hflush] at hfile
        rw [flush, hflush]
      · exact .head hfile files
      · exact (Confine.head hfile files).trans ((ih t').tail file')

theorem rewritten_close (files : OutputFiles) (t : FileTree) :
    Rewritten files.places t (files.close t) := by
  induction files generalizing t with
  | nil => exact .refl _ _
  | cons file files ih =>
      exact ((file.rewritten_close t).mono (by simp [places])).trans
        ((ih _).mono (by simp [places]))

theorem touched_createAll (paths : List Path) (t : FileTree) :
    Touched paths t (createAll t paths).2 := by
  induction paths generalizing t with
  | nil => exact .refl _ _
  | cons path paths ih =>
      rcases hcreate : t.create path with e | ⟨place, t'⟩
      · rw [createAll, hcreate]
        exact .refl _ _
      · obtain ⟨hresolve, hrew, -⟩ := FileTree.create_eq_ok hcreate
        have hpath : Touched (path :: paths) t t' :=
          (Touched.of_resolve hresolve hrew).mono (by simp)
        have hrest := hpath.trans ((ih t').mono (List.subset_cons_self _ _))
        rcases hall : createAll t' paths with ⟨e | files, t''⟩
        all_goals
          rw [hall] at hrest
          rw [createAll, hcreate]
          simp only [hall]
          exact hrest

theorem touched_create (paths : List Path) (t : FileTree) : Touched paths t (create paths t).2 := by
  rw [create]
  split
  · exact .refl _ _
  · exact touched_createAll paths t

/-- Files that were opened at once are changed at the places of their paths. -/
theorem exists_path_of_create {paths : List Path} (h : create paths t = (.ok files, t')) :
    ∀ place ∈ files.places, ∃ path ∈ paths, t.resolve path = .ok place := by
  rw [create] at h
  split at h
  · cases h
  · obtain ⟨hpaths, -⟩ := createAll_eq_ok h
    intro place hplace
    obtain ⟨file, hfile, rfl⟩ := List.mem_map.mp hplace
    exact exists_mem_of_forall₂ hpaths hfile

/-- What is done to files that have just been created, up to their closing, is confined to their
paths. -/
theorem Confine.touched {paths : List Path} (hcreate : create paths t = (.ok files, t'))
    (h : files.Confine t' ended) : Touched paths t (ended.1.close ended.2) := by
  have hcreated := touched_create paths t
  rw [hcreate] at hcreated
  refine hcreated.rewritten (exists_path_of_create hcreate) (h.rewritten.trans ?_)
  exact h.places ▸ ended.1.rewritten_close ended.2

theorem not_endsInSlash_of_createAll {paths : List Path}
    (h : createAll t paths = (.ok files, t')) :
    ∀ path ∈ paths, path.endsInSlash = false := by
  induction paths generalizing t t' files with
  | nil => simp
  | cons path paths ih =>
      rw [createAll] at h
      split at h
      · cases h
      · next place t₁ hcreate =>
          split at h
          · next files₁ t₂ hrest =>
              exact List.forall_mem_cons.mpr
                ⟨FileTree.not_endsInSlash_of_create hcreate, ih hrest⟩
          · next hfail => exact absurd h (hfail _ _)

theorem length_pos_of_create {paths : List Path}
    (h : create paths t = (.ok files, t')) : 0 < files.length := by
  rw [create] at h
  split at h
  · simp at h
  · next hne =>
      rw [← (createAll_eq_ok h).1.length_eq]
      exact List.length_pos_iff.mpr (mt List.isEmpty_iff.mpr hne)

/-- Files that have just been created at these paths, none of them twice, and not been written to. -/
structure Created (t : FileTree) (paths : List Path) (files : OutputFiles) (t₁ : FileTree) : Prop where
  hold : ∃ full, Hold t₁ full (fun _ => []) files
  resolve : List.Forall₂ (fun path place => t.resolve path = .ok place) paths files.places
  rewritten : Rewritten files.places t t₁
  not_endsInSlash : ∀ path ∈ paths, path.endsInSlash = false

theorem created_of_create {paths : List Path} (hpaths : paths.Pairwise t.Separate)
    (hcreate : create paths t = (.ok files, t')) : Created t paths files t' := by
  rw [create] at hcreate
  split at hcreate
  · cases hcreate
  obtain ⟨hfiles, hrew, hhold⟩ := createAll_eq_ok hcreate
  have hplaces : List.Forall₂ (fun path place => t.resolve path = .ok place) paths files.places :=
    List.forall₂_map_right_iff.mpr hfiles
  obtain ⟨full, hhold, -⟩ := hhold (FileTree.nodup_of_separate hpaths hplaces)
  exact ⟨⟨full, hhold⟩, hplaces, hrew, not_endsInSlash_of_createAll hcreate⟩

namespace Created

variable {t₁ t₂ t₃ : FileTree} {paths : List Path} {files₂ files₃ : OutputFiles}

theorem length_eq (h : Created t paths files t₁) : files.length = paths.length := by
  rw [h.resolve.length_eq, length_places]

theorem notMem (h : Created t paths files t₁) {path : Path} {place : Location}
    (hapart : ∀ p ∈ paths, t.Separate path p) (hresolve : t.resolve path = .ok place) :
    place ∉ files.places :=
  FileTree.notMem_of_separate h.resolve hapart hresolve

/-- Once all has been written, the files hold what was written to them. -/
theorem stores {full : Nat → Bool} {written : Nat → Bytes} (h : Created t paths files t₁)
    (hconfine : files.Confine t₁ (files₂, t₂)) (hhold : Hold t₂ full written files₂)
    (hflush : files₂.flush t₂ = (.ok (), files₃, t₃)) :
    List.Forall₂ (fun path bs => ∃ place, (files₃.close t₃).Stores path place bs) paths
      ((List.range paths.length).map written) := by
  obtain ⟨hflushed, hrew, hsame⟩ := hhold.flush hflush
  have hresolve : List.Forall₂ (fun path place => t₃.resolve path = .ok place) paths
      files₃.places := by
    rw [hsame, hconfine.places]
    exact h.resolve.imp fun _ _ hplace => (hrew.resolve _ _).mpr
      ((hconfine.rewritten.resolve _ _).mpr ((h.rewritten.resolve _ _).mpr hplace))
  rw [hflushed.close]
  exact FileTree.forall₂_stores hresolve h.not_endsInSlash hflushed.stored

end Created

end OutputFiles

/-! ### Stages -/

namespace Shard

theorem confine_deal (next : Nat) (counts : List Nat) (files : OutputFiles) (t : FileTree)
    (lines : List Bytes) : files.Confine t (deal next counts files t lines).2 := by
  induction lines generalizing next counts files t with
  | nil => exact .refl _ _
  | cons line lines ih =>
      have hline := OutputFiles.confine_writeCounted next line counts t files
      rw [deal]
      rcases hwrite : files.writeCounted next line counts t with ⟨e | counts', files', t'⟩
      all_goals rw [hwrite] at hline
      · exact hline
      · exact hline.trans (ih _ counts' files' t')

theorem run_touched (input : Path) (shards : List Path) (t : FileTree) :
    Touched shards t (run input shards t).2 := by
  rw [run]
  cases t.openFile input with
  | error e => exact .refl _ _
  | ok source =>
      have hcreated := OutputFiles.touched_create shards t
      rcases hcreate : OutputFiles.create shards t with ⟨e | files, t'⟩
      · rw [hcreate] at hcreated
        exact hcreated
      · cases hread : t'.read source with
        | error e =>
            simp only [hread]
            exact (OutputFiles.Confine.refl files t').touched hcreate
        | ok contents =>
            have hlines := confine_deal 0 (.replicate files.length 0) files t' (readLines contents)
            simp only [hread]
            rcases hdeal : deal 0 (.replicate files.length 0) files t' (readLines contents)
              with ⟨e | counts, files', t''⟩
            all_goals rw [hdeal] at hlines
            · exact hlines.touched hcreate
            · exact (hlines.trans (files'.confine_flush t'')).touched hcreate

end Shard

namespace Shuffle

theorem confine_send (hash : Bytes → Nat) (key line : Bytes) (counts : List Nat)
    (files : OutputFiles) (t : FileTree) : files.Confine t (send hash key line counts files t).2 := by
  rw [send]
  cases partitionOf hash key files.length with
  | error e => exact .refl _ _
  | ok owner => exact OutputFiles.confine_writeCounted owner line counts t files

theorem confine_routeLines (hash : Bytes → Nat) (path : Path) (number : Nat) (reader : FileReader)
    (counts : List Nat) (files : OutputFiles) (t : FileTree) (fuel : Nat) :
    files.Confine t (routeLines hash path number reader counts files t fuel).2 := by
  induction fuel generalizing number reader counts files t with
  | zero => exact .refl _ _
  | succ fuel ih =>
      rw [routeLines]
      rcases reader.next t with e | _ | ⟨line, reader'⟩
      · exact .refl _ _
      · exact .refl _ _
      · cases hsplit : Record.split line with
        | error e =>
            simp only [hsplit]
            exact .refl _ _
        | ok record =>
            have hline := confine_send hash record.key line counts files t
            simp only [hsplit]
            rcases hsend : send hash record.key line counts files t with ⟨e | counts', files', t'⟩
            all_goals rw [hsend] at hline
            · exact hline
            · exact hline.trans (ih (number + 1) reader' counts' files' t')

theorem confine_routeFiles (hash : Bytes → Nat) (inputs : List Path) (counts : List Nat)
    (files : OutputFiles) (t : FileTree) :
    files.Confine t (routeFiles hash counts t files inputs).2 := by
  induction inputs generalizing counts files t with
  | nil => exact .refl _ _
  | cons path inputs ih =>
      rw [routeFiles]
      cases t.openFile path with
      | error e => exact .refl _ _
      | ok source =>
          have hlines :=
            confine_routeLines hash path 1 (.ofPlace source) counts files t (lineLimit t source)
          rcases hroute : routeLines hash path 1 (.ofPlace source) counts files t (lineLimit t source)
            with ⟨e | counts', files', t'⟩
          all_goals
            rw [hroute] at hlines
            simp only [hroute]
          · exact hlines
          · exact hlines.trans (ih counts' files' t')

theorem run_touched (hash : Bytes → Nat) (inputs outputs : List Path) (t : FileTree) :
    Touched outputs t (run hash inputs outputs t).2 := by
  have hcreated := OutputFiles.touched_create outputs t
  rw [run, attempt]
  rcases hcreate : OutputFiles.create outputs t with ⟨e | files, t'⟩
  · rw [hcreate] at hcreated
    exact hcreated
  · have hfiles := confine_routeFiles hash inputs (.replicate files.length 0) files t'
    rcases hroute : routeFiles hash (.replicate files.length 0) t' files inputs
      with ⟨e | counts, files', t''⟩
    all_goals
      rw [hroute] at hfiles
      simp only [hroute]
    · exact hfiles.touched hcreate
    · exact (hfiles.trans (files'.confine_flush t'')).touched hcreate

end Shuffle

theorem Combine.intoFile_touched (inputs : List Path) (output : Path) (t : FileTree) :
    Touched [output] t (Combine.intoFile inputs output t).2 := by
  rw [Combine.intoFile, Combine.intoFileFrom]
  rcases hcreate : t.create output with e | ⟨place, t'⟩
  · exact .refl _ _
  · exact FileTree.touched_of_create hcreate 0 _

/-! ### Tasks -/

theorem MapTask.run_touched (map : MapFunction) (aux : Bytes) (input output : Path) (t : FileTree) :
    Touched [output] t (MapTask.run map aux input output t).2 := by
  rw [MapTask.run]
  cases t.openFile input >>= t.read with
  | error e => exact .refl _ _
  | ok contents =>
      rcases hcreate : t.create output with e | ⟨place, t'⟩
      · exact .refl _ _
      · dsimp only
        split
        · obtain ⟨hresolve, hrew, -⟩ := FileTree.create_eq_ok hcreate
          exact .of_resolve hresolve hrew
        · exact FileTree.touched_of_create hcreate 0 _

theorem ReduceTask.runThrough_touched (sorter : Sorter) (reduce : ReduceFunction) (aux : Bytes)
    (input output : Path) (t : FileTree) :
    Touched [output] t (ReduceTask.runThrough sorter reduce aux input output t).2 := by
  rw [ReduceTask.runThrough]
  cases t.openFile input with
  | error e => exact .refl _ _
  | ok source =>
      cases t.checkScratch (directoryOf output) with
      | error e => exact .refl _ _
      | ok _ =>
          dsimp only
          split
          · exact .refl _ _
          · rcases hcreate : t.create output with e | ⟨place, t'⟩
            · exact .refl _ _
            · exact FileTree.touched_of_create hcreate 0 _

/-- A task changes at most its output file. -/
theorem TaskRunner.run_touched (runner : TaskRunner) (task : Task) (t : FileTree) :
    Touched [task.output] t (runner.run task t).2 := by
  rw [TaskRunner.run]
  cases task.kind with
  | map => exact MapTask.run_touched _ _ _ _ t
  | reduce => exact ReduceTask.runThrough_touched _ _ _ _ _ t

end MapReduce
