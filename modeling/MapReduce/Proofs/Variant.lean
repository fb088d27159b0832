import Mathlib.Data.Set.Insert
import MapReduce.Combine
import MapReduce.Proofs.Frames

/-!
# Two trees side by side

A stage reads nothing but its inputs: what else the tree holds decides neither whether the stage
succeeds nor what it writes, as long as directories and devices stay the same. So when it succeeds
on one of two trees that agree on its inputs, it does on the other with the same result, and
afterwards they agree on its outputs as well, whatever either of them held there.
-/

namespace MapReduce

namespace FileTree

variable {t t' t'' t₁ : FileTree} {A B : Set Location} {place : Location} {path : Path}
  {paths : List Path}

/-- The places that the paths lead to. -/
def placesOf (t : FileTree) (paths : List Path) : Set Location :=
  {q | ∃ path ∈ paths, t.resolve path = .ok q}

theorem mem_placesOf (hpath : path ∈ paths) (hresolve : t.resolve path = .ok place) :
    place ∈ t.placesOf paths :=
  ⟨path, hpath, hresolve⟩

theorem placesOf_mono {paths' : List Path} (h : paths ⊆ paths') :
    t.placesOf paths ⊆ t.placesOf paths' := by
  rintro q ⟨path, hpath, hresolve⟩
  exact ⟨path, h hpath, hresolve⟩

theorem placesOf_cons (t : FileTree) (path : Path) (paths : List Path) :
    t.placesOf (path :: paths) = t.placesOf [path] ∪ t.placesOf paths := by
  ext q
  simp [placesOf]

theorem Rewritten.placesOf_eq {places : List Location} (h : Rewritten places t t')
    (paths : List Path) : t'.placesOf paths = t.placesOf paths := by
  ext q
  simp only [placesOf, Set.mem_ofPred_eq, h.resolve]

theorem Touched.of_create (h : t.create path = .ok (place, t₁)) : Touched [path] t t₁ := by
  obtain ⟨hresolve, hrew, -⟩ := create_eq_ok h
  exact .of_resolve hresolve hrew

theorem Touched.placesOf_eq (h : Touched paths t t') (paths' : List Path) :
    t'.placesOf paths' = t.placesOf paths' := by
  obtain ⟨places, -, hrew⟩ := h
  exact hrew.placesOf_eq paths'

theorem Touched.get?_of_notMem (h : Touched paths t t') (hplace : place ∉ t.placesOf paths) :
    t'.get? place = t.get? place := by
  obtain ⟨places, hplaces, hrew⟩ := h
  exact hrew.get?_of_notMem place fun hmem => hplace (hplaces place hmem)

theorem create_eq_ok_iff : t.create path = .ok (place, t₁) ↔
    path.endsInSlash = false ∧ t.resolve path = .ok place ∧ t.get? place ≠ some .directory
      ∧ t₁ = if t.get? place = some .fullDevice then t else t.put place (.file []) := by
  rw [create]
  cases path.endsInSlash with
  | true => simp [bind_eq_ok]
  | false =>
      simp only [Bool.false_eq_true, if_false, bind_eq_ok, true_and]
      constructor
      · rintro ⟨q, hresolve, hcreate⟩
        split at hcreate <;> cases hcreate <;> simp_all
      · rintro ⟨hresolve, hdir, rfl⟩
        refine ⟨place, hresolve, ?_⟩
        split <;> simp_all

/-- The trees hold the same at these places, and everywhere the same directories and devices. -/
structure Variant (agreed : Set Location) (t t' : FileTree) : Prop where
  workingDirectory : t'.workingDirectory = t.workingDirectory
  directory : ∀ q, t'.get? q = some .directory ↔ t.get? q = some .directory
  fullDevice : ∀ q, t'.get? q = some .fullDevice ↔ t.get? q = some .fullDevice
  get?_of_mem : ∀ q ∈ agreed, t'.get? q = t.get? q

namespace Variant

theorem refl (A : Set Location) (t : FileTree) : Variant A t t :=
  ⟨rfl, fun _ => Iff.rfl, fun _ => Iff.rfl, fun _ _ => rfl⟩

theorem symm (h : Variant A t t') : Variant A t' t where
  workingDirectory := h.workingDirectory.symm
  directory q := (h.directory q).symm
  fullDevice q := (h.fullDevice q).symm
  get?_of_mem q hq := (h.get?_of_mem q hq).symm

theorem trans (h : Variant A t t') (h' : Variant B t' t'') : Variant (A ∩ B) t t'' where
  workingDirectory := h'.workingDirectory.trans h.workingDirectory
  directory q := (h'.directory q).trans (h.directory q)
  fullDevice q := (h'.fullDevice q).trans (h.fullDevice q)
  get?_of_mem q hq := (h'.get?_of_mem q hq.2).trans (h.get?_of_mem q hq.1)

theorem agree (h : Variant A t t') (hB : ∀ q ∈ B, t'.get? q = t.get? q) : Variant B t t' :=
  ⟨h.workingDirectory, h.directory, h.fullDevice, hB⟩

theorem mono (h : Variant A t t') (hsub : B ⊆ A) : Variant B t t' :=
  h.agree fun q hq => h.get?_of_mem q (hsub hq)

/-! ### Looking at both trees -/

theorem rewritten (h : Variant A t t') :
    Rewritten (t.nodes.map Prod.fst ++ t'.nodes.map Prod.fst) t t' where
  workingDirectory := h.workingDirectory
  get?_of_notMem q hq := by
    have hnone : ∀ nodes : List (Location × Node), q ∉ nodes.map Prod.fst →
        nodes.lookup q = none := by
      intro nodes hnot
      refine List.lookup_eq_none_iff.mpr fun entry hentry => ?_
      rw [bne_iff_ne]
      rintro rfl
      exact hnot (List.mem_map_of_mem hentry)
    rw [List.mem_append, not_or] at hq
    rw [get?, get?, hnone _ hq.1, hnone _ hq.2]
  directory := h.directory

theorem resolve (h : Variant A t t') (path : Path) (stop : Location) :
    t'.resolve path = .ok stop ↔ t.resolve path = .ok stop :=
  h.rewritten.resolve path stop

theorem placesOf_eq (h : Variant A t t') (paths : List Path) :
    t'.placesOf paths = t.placesOf paths :=
  h.rewritten.placesOf_eq paths

theorem checkScratch (h : Variant A t t') {directory : Path}
    (hscratch : t.checkScratch directory = .ok ()) : t'.checkScratch directory = .ok () :=
  (h.rewritten.checkScratch directory).mpr hscratch

theorem sinkAt_eq (h : Variant A t t') (place : Location) : t'.sinkAt place = t.sinkAt place := by
  simp only [sinkAt, h.fullDevice]

theorem read_eq (h : Variant A t t') (hplace : place ∈ A) : t'.read place = t.read place := by
  rw [read, read, h.get?_of_mem place hplace]

theorem openFile (h : Variant A t t') (hA : t.placesOf [path] ⊆ A)
    (hopen : t.openFile path = .ok place) : place ∈ A ∧ t'.openFile path = .ok place := by
  have hmem : place ∈ A := hA (mem_placesOf (by simp) (openFile_eq_ok hopen))
  obtain ⟨place', hresolve, hkind⟩ := bind_eq_ok.mp hopen
  obtain rfl := Except.ok.inj ((openFile_eq_ok hopen).symm.trans hresolve)
  refine ⟨hmem, bind_eq_ok.mpr ⟨place, (h.resolve path place).mpr hresolve, ?_⟩⟩
  rw [h.get?_of_mem place hmem]
  exact hkind

/-! ### Changing both trees -/

theorem put (h : Variant A t t') (place : Location) (node : Node) :
    Variant (insert place A) (t.put place node) (t'.put place node) where
  workingDirectory := h.workingDirectory
  directory q := by
    rw [get?_put, get?_put]
    split
    · rfl
    · exact h.directory q
  fullDevice q := by
    rw [get?_put, get?_put]
    split
    · rfl
    · exact h.fullDevice q
  get?_of_mem q hq := by
    rw [get?_put, get?_put]
    split
    · rfl
    · next hne => exact h.get?_of_mem q (Set.mem_of_mem_insert_of_ne hq hne)

theorem writeAt (h : Variant A t t') (hplace : place ∈ A) (offset : Nat) (bs : Bytes) :
    Variant A (t.writeAt place offset bs) (t'.writeAt place offset bs) := by
  unfold FileTree.writeAt
  rw [h.get?_of_mem place hplace]
  split
  · exact (h.put place _).mono (Set.subset_insert _ _)
  · exact h

/-- The place of a file that was created holds the same in both trees. -/
theorem create (h : Variant A t t') (hcreate : t.create path = .ok (place, t₁)) :
    ∃ t₁', t'.create path = .ok (place, t₁')
      ∧ Variant (A ∪ t.placesOf [path]) t₁ t₁' ∧ place ∈ t.placesOf [path] := by
  obtain ⟨hslash, hresolve, hdir, rfl⟩ := create_eq_ok_iff.mp hcreate
  refine ⟨_, create_eq_ok_iff.mpr ⟨hslash, (h.resolve path place).mpr hresolve,
    mt (h.directory place).mp hdir, rfl⟩, ?_, mem_placesOf (by simp) hresolve⟩
  have hsub : A ∪ t.placesOf [path] ⊆ insert place A := by
    rintro q (hq | ⟨p, hp, hq⟩)
    · exact Set.mem_insert_of_mem _ hq
    · obtain rfl := List.mem_singleton.mp hp
      exact Set.mem_insert_iff.mpr (.inl (Except.ok.inj (hq.symm.trans hresolve)))
  refine Variant.mono ?_ hsub
  simp only [h.fullDevice]
  split
  · next hdevice =>
      refine h.agree ?_
      rintro q (rfl | hq)
      · rw [(h.fullDevice q).mpr hdevice, hdevice]
      · exact h.get?_of_mem q hq
  · exact h.put place _

end Variant

/-! ### Before and after -/

theorem variant_put {node : Node} (hold : t.get? place ≠ some .directory)
    (holdDevice : t.get? place ≠ some .fullDevice) (hnew : node ≠ .directory)
    (hnewDevice : node ≠ .fullDevice) : Variant {place}ᶜ t (t.put place node) where
  workingDirectory := rfl
  directory := (rewritten_put hold hnew).directory
  fullDevice q := by
    rw [get?_put]
    split
    · next hq => simp [hq, holdDevice, hnewDevice]
    · rfl
  get?_of_mem q hq := get?_put_of_ne hq t node

theorem variant_writeAt (t : FileTree) (place : Location) (offset : Nat) (bs : Bytes) :
    Variant {place}ᶜ t (t.writeAt place offset bs) := by
  unfold writeAt
  split
  · next hold => exact variant_put (by simp [hold]) (by simp [hold]) (by simp) (by simp)
  · exact .refl _ _

/-- Creating a file changes nothing but that file. -/
theorem variant_of_create (h : t.create path = .ok (place, t₁)) :
    Variant (t.placesOf [path])ᶜ t t₁ := by
  obtain ⟨-, hresolve, hdir, rfl⟩ := create_eq_ok_iff.mp h
  split
  · exact .refl _ _
  · next hdevice =>
      refine (variant_put hdir hdevice (by simp) (by simp)).mono ?_
      rintro q hq rfl
      exact hq (mem_placesOf (by simp) hresolve)

theorem variant_of_written (h : t.create path = .ok (place, t₁)) (offset : Nat) (bs : Bytes) :
    Variant (t.placesOf [path])ᶜ t (t₁.writeAt place offset bs) := by
  obtain ⟨-, hresolve, -⟩ := create_eq_ok_iff.mp h
  refine ((variant_of_create h).trans (variant_writeAt t₁ place offset bs)).mono ?_
  refine Set.subset_inter subset_rfl ?_
  rintro q hq rfl
  exact hq (mem_placesOf (by simp) hresolve)

end FileTree

open FileTree (Touched Variant)

variable {t t' t₁ : FileTree} {A : Set Location}

/-! ### Open files -/

namespace OutputFile

variable {file file₁ : OutputFile} {result : Except IoError Unit}

theorem deliver_variant (h : Variant A t t') (hfile : file.place ∈ A) (writer : BlockWriter)
    (hdeliver : deliver { file with writer } t = (file₁, t₁)) :
    ∃ t₁', deliver { file with writer } t' = (file₁, t₁') ∧ Variant A t₁ t₁' := by
  unfold deliver at hdeliver ⊢
  split at hdeliver
  · obtain ⟨rfl, rfl⟩ := Prod.mk.inj hdeliver
    exact ⟨t', rfl, h⟩
  · obtain ⟨rfl, rfl⟩ := Prod.mk.inj hdeliver
    exact ⟨_, rfl, h.writeAt hfile _ _⟩

theorem writeLine_variant (h : Variant A t t') (hfile : file.place ∈ A) {line : Bytes}
    (hwrite : file.writeLine line t = (result, file₁, t₁)) :
    ∃ t₁', file.writeLine line t' = (result, file₁, t₁') ∧ Variant A t₁ t₁' := by
  rcases hwriter : file.writer.writeLine line with ⟨e | _, writer⟩
  all_goals
    rw [writeLine, hwriter] at hwrite ⊢
    obtain ⟨rfl, hdeliver⟩ := Prod.mk.inj hwrite
    obtain ⟨t₁', hdeliver', h₁⟩ := deliver_variant h hfile _ hdeliver
    exact ⟨t₁', congrArg (Prod.mk _) hdeliver', h₁⟩

theorem flush_variant (h : Variant A t t') (hfile : file.place ∈ A)
    (hflush : file.flush t = (result, file₁, t₁)) :
    ∃ t₁', file.flush t' = (result, file₁, t₁') ∧ Variant A t₁ t₁' := by
  rcases hwriter : file.writer.flush with ⟨e | _, writer⟩
  all_goals
    rw [flush, hwriter] at hflush ⊢
    obtain ⟨rfl, hdeliver⟩ := Prod.mk.inj hflush
    obtain ⟨t₁', hdeliver', h₁⟩ := deliver_variant h hfile _ hdeliver
    exact ⟨t₁', congrArg (Prod.mk _) hdeliver', h₁⟩

theorem close_variant (h : Variant A t t') (hfile : file.place ∈ A) :
    Variant A (file.close t) (file.close t') := by
  obtain ⟨t₁', hdeliver', h₁⟩ := deliver_variant h hfile file.writer.release.2 rfl
  rw [close, close, hdeliver']
  exact h₁

end OutputFile

namespace OutputFiles

variable {files files₁ : OutputFiles} {paths : List Path} {result : Except IoError Unit}

/-- The places at which the files can be changed. -/
def Within (A : Set Location) (files : OutputFiles) : Prop :=
  ∀ place ∈ files.places, place ∈ A

theorem within_cons {file : OutputFile} :
    Within A (file :: files) ↔ file.place ∈ A ∧ Within A files := by
  simp [Within, places]

theorem Confine.within {ended : OutputFiles × FileTree} (h : files.Confine t ended)
    (hfiles : Within A files) : Within A ended.1 := by
  rw [Within, h.places]
  exact hfiles

theorem createAll_variant (h : Variant A t t') (hcreate : createAll t paths = (.ok files, t₁)) :
    ∃ t₁', createAll t' paths = (.ok files, t₁') ∧ Variant (A ∪ t.placesOf paths) t₁ t₁'
      ∧ Within (t.placesOf paths) files := by
  induction paths generalizing t t' A files with
  | nil =>
      obtain ⟨hfiles, rfl⟩ := Prod.mk.inj hcreate
      obtain rfl := Except.ok.inj hfiles
      exact ⟨t', rfl, by simpa [FileTree.placesOf] using h, by simp [Within, places]⟩
  | cons path paths ih =>
      rw [createAll] at hcreate ⊢
      rcases hone : t.create path with e | ⟨place, u⟩
      · rw [hone] at hcreate
        cases hcreate
      · obtain ⟨u', hone', hu, hplace⟩ := h.create hone
        rw [hone] at hcreate
        rcases hall : createAll u paths with ⟨e | rest, u₁⟩
        all_goals simp only [hall] at hcreate
        · cases hcreate
        · obtain ⟨hfiles, rfl⟩ := Prod.mk.inj hcreate
          obtain rfl := Except.ok.inj hfiles
          obtain ⟨u₁', hall', hu₁, hrest⟩ := ih hu hall
          rw [(Touched.of_create hone).placesOf_eq] at hu₁ hrest
          rw [t.placesOf_cons, ← Set.union_assoc]
          refine ⟨u₁', ?_, hu₁, ?_⟩
          · simp only [hone', hall', hu₁.sinkAt_eq]
          · exact within_cons.mpr ⟨Or.inl hplace, fun q hq => Or.inr (hrest q hq)⟩

theorem create_variant (h : Variant A t t') (hcreate : create paths t = (.ok files, t₁)) :
    ∃ t₁', create paths t' = (.ok files, t₁') ∧ Variant (A ∪ t.placesOf paths) t₁ t₁'
      ∧ Within (t.placesOf paths) files := by
  rw [create] at hcreate ⊢
  split at hcreate
  · cases hcreate
  · next hne =>
      rw [if_neg hne]
      exact createAll_variant h hcreate

theorem writeLine_variant (h : Variant A t t') (hfiles : Within A files) {index : Nat}
    {line : Bytes} (hwrite : files.writeLine index line t = (result, files₁, t₁)) :
    ∃ t₁', files.writeLine index line t' = (result, files₁, t₁') ∧ Variant A t₁ t₁' := by
  induction files generalizing index files₁ t₁ result with
  | nil =>
      rw [writeLine] at hwrite ⊢
      obtain ⟨rfl, rfl, rfl⟩ := hwrite
      exact ⟨t', rfl, h⟩
  | cons file files ih =>
      obtain ⟨hfile, hrest⟩ := within_cons.mp hfiles
      cases index with
      | zero =>
          rcases hone : file.writeLine line t with ⟨r, file₁, u⟩
          obtain ⟨u', hone', hu⟩ := OutputFile.writeLine_variant h hfile hone
          simp only [writeLine, hone] at hwrite
          obtain ⟨rfl, rfl, rfl⟩ := hwrite
          exact ⟨u', by simp only [writeLine, hone'], hu⟩
      | succ index =>
          rcases hone : writeLine index line t files with ⟨r, rest, u⟩
          obtain ⟨u', hone', hu⟩ := ih hrest hone
          simp only [writeLine, hone] at hwrite
          obtain ⟨rfl, rfl, rfl⟩ := hwrite
          exact ⟨u', by simp only [writeLine, hone'], hu⟩

theorem writeCounted_variant (h : Variant A t t') (hfiles : Within A files) {index : Nat}
    {line : Bytes} {counts : List Nat} {counted : Except (Abort IoError) (List Nat)}
    (hwrite : files.writeCounted index line counts t = (counted, files₁, t₁)) :
    ∃ t₁', files.writeCounted index line counts t' = (counted, files₁, t₁')
      ∧ Variant A t₁ t₁' := by
  rw [writeCounted] at hwrite ⊢
  cases hcheck : checkIndex files.length index with
  | error e =>
      simp only [hcheck] at hwrite ⊢
      obtain ⟨rfl, rfl, rfl⟩ := hwrite
      exact ⟨t', rfl, h⟩
  | ok _ =>
      rcases hone : files.writeLine index line t with ⟨e | _, files', u⟩
      all_goals
        obtain ⟨u', hone', hu⟩ := writeLine_variant h hfiles hone
        simp only [hcheck, hone, hone'] at hwrite ⊢
        obtain ⟨rfl, rfl, rfl⟩ := hwrite
        exact ⟨u', rfl, hu⟩

theorem flush_variant (h : Variant A t t') (hfiles : Within A files)
    (hflush : files.flush t = (result, files₁, t₁)) :
    ∃ t₁', files.flush t' = (result, files₁, t₁') ∧ Variant A t₁ t₁' := by
  induction files generalizing t t' t₁ result files₁ with
  | nil =>
      obtain ⟨rfl, rfl, rfl⟩ := hflush
      exact ⟨t', rfl, h⟩
  | cons file files ih =>
      obtain ⟨hfile, hrest⟩ := within_cons.mp hfiles
      rcases hone : file.flush t with ⟨e | _, file₁, u⟩
      all_goals
        obtain ⟨u', hone', hu⟩ := OutputFile.flush_variant h hfile hone
        simp only [flush, hone, hone'] at hflush ⊢
      · obtain ⟨rfl, rfl, rfl⟩ := hflush
        exact ⟨u', rfl, hu⟩
      · rcases hall : flush u files with ⟨r, rest, u₁⟩
        obtain ⟨u₁', hall', hu₁⟩ := ih hu hrest hall
        simp only [hall] at hflush
        obtain ⟨rfl, rfl, rfl⟩ := hflush
        exact ⟨u₁', by simp only [hall'], hu₁⟩

theorem close_variant (h : Variant A t t') (hfiles : Within A files) :
    Variant A (files.close t) (files.close t') := by
  induction files generalizing t t' with
  | nil => exact h
  | cons file files ih =>
      obtain ⟨hfile, hrest⟩ := within_cons.mp hfiles
      exact ih (OutputFile.close_variant h hfile) hrest

/-- The end of a stage: what is left in the buffers is written, and the files are closed. -/
theorem flush_close_variant (h : Variant A t t') (hfiles : Within A files)
    (hflush : files.flush t = (result, files₁, t₁)) :
    ∃ t₁', files.flush t' = (result, files₁, t₁')
      ∧ Variant A (files₁.close t₁) (files₁.close t₁') := by
  have hconfine := files.confine_flush t
  obtain ⟨t₁', hflush', h₁⟩ := flush_variant h hfiles hflush
  rw [hflush] at hconfine
  exact ⟨t₁', hflush', close_variant h₁ (hconfine.within hfiles)⟩

end OutputFiles

end MapReduce
