import MapReduce.Proofs.Command
import MapReduce.Proofs.Layout
import MapReduce.Proofs.Shuffle
import MapReduce.Proofs.TaskSequence

/-!
# From one phase to the next

Each phase reads the files that the one before has written, and writes others. Their paths go through
command lines unharmed if the directory that they lie in does.
-/

namespace MapReduce

/-! ### Paths without white space -/

/-- A text without white space, so part of a word. -/
def Path.Unblank (path : Path) : Prop :=
  ∃ cs, path = Utf8.encode cs ∧ ∀ c ∈ cs, Text.isBlank c = false

namespace Path

variable {p q : Path}

theorem unblank_ofString {s : String} (h : s.toList.all (fun c => !Text.isBlank c) = true) :
    Unblank (Bytes.ofString s) :=
  ⟨s.toList, rfl, by simpa using h⟩

theorem Unblank.append (hp : Unblank p) (hq : Unblank q) : Unblank (p ++ q) := by
  obtain ⟨cs, rfl, hcs⟩ := hp
  obtain ⟨ds, rfl, hds⟩ := hq
  refine ⟨cs ++ ds, (Utf8.encode_append cs ds).symm, ?_⟩
  intro c hc
  rcases List.mem_append.mp hc with hc | hc
  · exact hcs c hc
  · exact hds c hc

theorem Unblank.join (hp : Unblank p) (hq : Unblank q) : Unblank (Path.join p q) := by
  have hslash : Unblank [Bytes.slash] := @unblank_ofString "/" (by decide)
  unfold Path.join
  split
  · exact hq
  · split
    · exact hp.append hq
    · exact hp.append (hslash.append hq)

theorem unblank_showCount (n : Nat) : Unblank (Utf8.encode (Text.showCount n)) := by
  refine ⟨Text.showCount n, rfl, ?_⟩
  intro c hc
  obtain ⟨hlow, hhigh⟩ := Text.toNat_of_isDigit (Text.isDigit_of_mem_showCount hc)
  unfold Text.isBlank
  simp
  omega

theorem Unblank.isSendable (h : Unblank p) (hne : p ≠ []) : Command.isSendable p = true := by
  obtain ⟨cs, rfl, hcs⟩ := h
  refine Command.isSendable_iff.mpr ⟨cs, rfl, fun hnil => hne ?_, hcs⟩
  rw [hnil]
  rfl

end Path

namespace JobLayout

variable {t t' t'' : FileTree} {directory : Path} {n : Nat} {stage stage' : String}
  {done : List String}

theorem unblank_fileName (hstage : stage ∈ stages) (i : Nat) : Path.Unblank (fileName stage i) := by
  have hname : Path.Unblank (Bytes.ofString stage) := Path.unblank_ofString (by
    revert hstage
    revert stage
    decide)
  have hhyphen : Path.Unblank [0x2D] := @Path.unblank_ofString "-" (by decide)
  exact hname.append (hhyphen.append (Path.unblank_showCount i))

theorem isSendable_of_mem_files (hdirectory : directory.Unblank) (hstage : stage ∈ stages) {p : Path}
    (hp : p ∈ files directory n stage) : Command.isSendable p = true := by
  obtain ⟨i, -, rfl⟩ := List.mem_map.mp hp
  apply (hdirectory.join (unblank_fileName hstage i)).isSendable
  intro hnil
  have hslash := congrArg Path.names hnil
  rw [Path.names_join (plain_fileName hstage i)] at hslash
  simp [Path.names, splitWhere] at hslash

theorem apart_files (t : FileTree) (directory : Path) (n : Nat) (hstage : stage ∈ stages)
    (hstage' : stage' ∈ stages) (hne : stage ≠ stage') :
    t.Apart (files directory n stage) (files directory n stage') where
  separate_outputs := pairwise_separate_files t directory n hstage'
  separate _ hi _ ho := separate_of_mem_files t hstage hstage' hne hi ho
  not_endsInSlash _ ho := not_endsInSlash_of_mem_files hstage' ho

/-- Between the trees, at most the files of some stages have changed. -/
def Passed (directory : Path) (n : Nat) (done : List String) (t t' : FileTree) : Prop :=
  FileTree.Touched (done.flatMap (files directory n)) t t'

theorem Passed.step (h : Passed directory n done t t')
    (htouched : FileTree.Touched (files directory n stage) t' t'') :
    Passed directory n (stage :: done) t t'' := by
  refine (h.mono ?_).trans (htouched.mono ?_)
  · simp
  · simp

theorem Passed.ordinary (h : Passed directory n done t t') (hdone : done ⊆ stages)
    (hstage : stage ∈ stages) (hlater : stage ∉ done)
    (hordinary : ∀ path ∈ files directory n stage, t.Ordinary path) :
    ∀ path ∈ files directory n stage, t'.Ordinary path := by
  intro path hpath
  apply FileTree.Touched.ordinary h (hordinary path hpath)
  intro p hp
  obtain ⟨earlier, hearlier, hp⟩ := List.mem_flatMap.mp hp
  exact separate_of_mem_files t hstage (hdone hearlier) (fun h => hlater (h ▸ hearlier)) hpath hp

end JobLayout

namespace MapTask

variable {runner : TaskRunner} {inputs outputs : List Path} {emitted : List (List Record)}
  {t : FileTree}

theorem Emits.unique {map : MapFunction} {aux : Bytes} {input : Path} {records records' : List Record}
    (h : Emits map aux t input records) (h' : Emits map aux t input records') :
    records = records' := by
  obtain ⟨source, contents, hstores, hmap⟩ := h
  obtain ⟨source', contents', hstores', hmap'⟩ := h'
  obtain rfl := Except.ok.inj (hstores.resolve.symm.trans hstores'.resolve)
  obtain rfl := Except.ok.inj (hstores.read.symm.trans hstores'.read)
  have hitems := Except.ok.inj (hmap.symm.trans hmap')
  exact List.map_injective_iff.mpr (fun _ _ => Except.ok.inj) hitems

theorem emitted_unique {map : MapFunction} {aux : Bytes} {emitted' : List (List Record)}
    (h : List.Forall₂ (Emits map aux t) inputs emitted)
    (h' : List.Forall₂ (Emits map aux t) inputs emitted') : emitted = emitted' :=
  List.right_unique_forall₂' (fun _ _ _ hrecords hrecords' => hrecords.unique hrecords') h h'

theorem writable_of_written (h : List.Forall₂ (Written t) outputs emitted) :
    ∀ r ∈ emitted.flatten, r.Writable := by
  intro r hr
  obtain ⟨records, hrecords, hr⟩ := List.mem_flatten.mp hr
  obtain ⟨_, -, hpath⟩ := exists_mem_of_forall₂ h hrecords
  exact hpath.2 r hr

/-- When the files are in order, a map phase writes down what the map function emits. -/
theorem runEach_written (hlength : inputs.length = outputs.length) (hapart : t.Apart inputs outputs)
    (hordinary : ∀ output ∈ outputs, t.Ordinary output)
    (hemits : List.Forall₂ (Emits runner.workload.map runner.aux t) inputs emitted)
    (hwritable : ∀ records ∈ emitted, ∀ r ∈ records, r.Writable) :
    AllOk (runner.runEach t (tasksOf .map inputs outputs)).1
      ∧ FileTree.Touched outputs t (runner.runEach t (tasksOf .map inputs outputs)).2
      ∧ List.Forall₂ (Written (runner.runEach t (tasksOf .map inputs outputs)).2) outputs emitted := by
  have hok := runEach_ordinary hlength hapart hordinary hemits hwritable
  obtain ⟨emitted', hemits', hwritten, htouched⟩ := runEach_eq_ok hlength hapart rfl hok
  obtain rfl := emitted_unique hemits hemits'
  exact ⟨hok, htouched, hwritten⟩

end MapTask

namespace Shuffle

variable {hash : Bytes → Nat} {inputs outputs : List Path} {shards : List (List Record)}
  {t : FileTree}

theorem suppliesApart_of_written (hwritten : List.Forall₂ (MapTask.Written t) inputs shards)
    (hapart : t.Apart inputs outputs) :
    List.Forall₂ (Shuffle.SuppliesApart t outputs) inputs shards := by
  refine ((List.forall₂_and_left _ _).mpr ⟨hapart.separate, hwritten⟩).imp ?_
  rintro input records ⟨hseparate, ⟨place, hstores⟩, hrecords⟩
  exact ⟨place, hstores, hseparate, hrecords⟩

theorem run_written_of_eq_ok {counts : List Nat} {t' : FileTree}
    (hwritten : List.Forall₂ (MapTask.Written t) inputs shards) (hapart : t.Apart inputs outputs)
    (hok : run hash inputs outputs t = (.ok counts, t')) :
    outputs ≠ [] ∧ FileTree.Touched outputs t t'
      ∧ List.Forall₂ (MapTask.Written t') outputs
          ((List.range outputs.length).map fun i => owned hash outputs.length i shards.flatten) := by
  obtain ⟨hne, places, full, hplaces, hrew, hholds⟩ :=
    run_eq_ok (suppliesApart_of_written hwritten hapart) hapart.separate_outputs hok
  have hplaces' : List.Forall₂ (fun output place => t'.resolve output = .ok place) outputs places :=
    hplaces.imp fun _ _ h => (hrew.resolve _ _).mpr h
  have hstores := FileTree.forall₂_stores hplaces' hapart.not_endsInSlash hholds
  refine ⟨hne, .of_forall₂ hplaces hrew, ?_⟩
  rw [List.forall₂_map_right_iff] at hstores ⊢
  exact hstores.imp fun _ _ h => ⟨h, fun r hr =>
    MapTask.writable_of_written hwritten r (List.mem_filter.mp hr).1⟩

theorem run_written (hash : Bytes → Nat) (hwritten : List.Forall₂ (MapTask.Written t) inputs shards)
    (hapart : t.Apart inputs outputs) (hne : outputs ≠ [])
    (hordinary : ∀ output ∈ outputs, t.Ordinary output) :
    ∃ counts t', run hash inputs outputs t = (.ok counts, t') ∧ FileTree.Touched outputs t t'
      ∧ List.Forall₂ (MapTask.Written t') outputs
          ((List.range outputs.length).map fun i => owned hash outputs.length i shards.flatten) := by
  obtain ⟨counts, t', hrun⟩ := run_ordinary hash (suppliesApart_of_written hwritten hapart)
    hapart.separate_outputs hne hordinary
  obtain ⟨-, htouched, hheld⟩ := run_written_of_eq_ok hwritten hapart hrun
  exact ⟨counts, t', hrun, htouched, hheld⟩

end Shuffle

namespace JobLayout

variable {t t₀ : FileTree} {directory : Path} {n : Nat} {runner : TaskRunner}

/-- The intermediate files can be made, and the sorter finds room for its own. -/
structure Roomy (directory : Path) (n : Nat) (t : FileTree) : Prop where
  ordinary : ∀ stage ∈ stages, ∀ path ∈ files directory n stage, t.Ordinary path
  scratch : ∀ path ∈ files directory n "reduce-output",
    t.checkScratch (ReduceTask.directoryOf path) = .ok ()

theorem Roomy.mapped {emitted : List (List Record)} (h : Roomy directory n t₀)
    (hpassed : Passed directory n ["map-input"] t₀ t)
    (hemits : List.Forall₂ (MapTask.Emits runner.workload.map runner.aux t)
      (files directory n "map-input") emitted)
    (hwritable : ∀ records ∈ emitted, ∀ r ∈ records, r.Writable) :
    let ran := runner.runEach t
      (tasksOf .map (files directory n "map-input") (files directory n "map-output"))
    AllOk ran.1 ∧ Passed directory n ["map-output", "map-input"] t₀ ran.2
      ∧ List.Forall₂ (MapTask.Written ran.2) (files directory n "map-output") emitted := by
  have hordinary := hpassed.ordinary (by decide) (by decide) (by decide)
    (h.ordinary "map-output" (by decide))
  obtain ⟨hok, htouched, hwritten⟩ := MapTask.runEach_written (by simp)
    (apart_files t directory n (by decide) (by decide) (by decide)) hordinary hemits hwritable
  exact ⟨hok, hpassed.step htouched, hwritten⟩

theorem Roomy.shuffled {emitted : List (List Record)} (h : Roomy directory n t₀)
    (hash : Bytes → Nat) (hn : 0 < n)
    (hpassed : Passed directory n ["map-output", "map-input"] t₀ t)
    (hwritten : List.Forall₂ (MapTask.Written t) (files directory n "map-output") emitted) :
    ∃ counts t', Shuffle.run hash (files directory n "map-output") (files directory n "reduce-input") t
        = (.ok counts, t')
      ∧ Passed directory n ["reduce-input", "map-output", "map-input"] t₀ t'
      ∧ List.Forall₂ (MapTask.Written t') (files directory n "reduce-input")
          ((List.range n).map fun i => Shuffle.owned hash n i emitted.flatten) := by
  have hordinary := hpassed.ordinary (by decide) (by decide) (by decide)
    (h.ordinary "reduce-input" (by decide))
  obtain ⟨counts, t', hrun, htouched, howned⟩ := Shuffle.run_written hash hwritten
    (apart_files t directory n (by decide) (by decide) (by decide))
    (files_ne_nil directory hn "reduce-input") hordinary
  rw [length_files] at howned
  exact ⟨counts, t', hrun, hpassed.step htouched, howned⟩

theorem Roomy.reduced {resultss : List (List Bytes)} (h : Roomy directory n t₀)
    (hpassed : Passed directory n ["reduce-input", "map-output", "map-input"] t₀ t)
    (hreduces : List.Forall₂ (ReduceTask.Reduces runner.workload.reduce runner.aux t)
      (files directory n "reduce-input") resultss) :
    let ran := runner.runEach t
      (tasksOf .reduce (files directory n "reduce-input") (files directory n "reduce-output"))
    AllOk ran.1 ∧ Passed directory n stages.reverse t₀ ran.2
      ∧ List.Forall₂ (fun path results => ∃ place, ran.2.Stores path place results.flatten)
          (files directory n "reduce-output") resultss := by
  have hordinary := hpassed.ordinary (by decide) (by decide) (by decide)
    (h.ordinary "reduce-output" (by decide))
  have hscratch : ∀ path ∈ files directory n "reduce-output",
      t.checkScratch (ReduceTask.directoryOf path) = .ok () := by
    intro path hpath
    exact (FileTree.Touched.checkScratch hpassed _).mpr (h.scratch path hpath)
  obtain ⟨hok, htouched, hstored⟩ := ReduceTask.runEach_ordinary (by simp)
    (apart_files t directory n (by decide) (by decide) (by decide)) hordinary hscratch hreduces
  exact ⟨hok, hpassed.step htouched, hstored⟩

end JobLayout

end MapReduce
