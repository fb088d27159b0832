import MapReduce.Job
import MapReduce.Proofs.FileTree

/-!
# The directory of a job

A job makes the directory that it is given for its intermediate files, with those above it, or a
fresh one that is removed in the end. Making directories puts nothing where something was, and makes
them only where a path leads to or one of those above it; what stands in a fresh directory has not
been there before. So when the job is over, a place that is not that of an intermediate file holds
what it held at first, or one of the directories that were made.
-/

namespace MapReduce

namespace FileTree

variable {t t' t'' : FileTree} {place stop : Location} {path : Path}

/-- A path that leads to a place goes on doing so as long as no directory is lost. -/
theorem walk_of_directories (hdir : ∀ q, t.get? q = some .directory → t'.get? q = some .directory)
    {names : List Bytes} {start : Location} (h : t.walk start names = .ok stop) :
    t'.walk start names = .ok stop := by
  induction names generalizing start with
  | nil => exact h
  | cons name names ih =>
      by_cases hstart : t.get? start = some .directory
      · simp only [walk, hstart, hdir start hstart] at h ⊢
        split
        · next hdot =>
            rw [if_pos hdot] at h
            exact ih h
        · next hdot =>
            rw [if_neg hdot] at h
            split
            · next hup =>
                rw [if_pos hup] at h
                exact ih h
            · next hup =>
                rw [if_neg hup] at h
                split
                · next hlong => simp [hlong] at h
                · next hlong =>
                    rw [if_neg hlong] at h
                    exact ih h
      · rw [walk] at h
        split at h
        · cases h
        · next hstart' => exact absurd hstart' hstart
        · cases h

theorem resolve_of_directories (hwork : t'.workingDirectory = t.workingDirectory)
    (hdir : ∀ q, t.get? q = some .directory → t'.get? q = some .directory)
    (h : t.resolve path = .ok place) : t'.resolve path = .ok place := by
  obtain ⟨_, hcheck, hwalk⟩ := bind_eq_ok.mp h
  refine bind_eq_ok.mpr ⟨_, hcheck, ?_⟩
  rw [origin, hwork]
  exact walk_of_directories hdir hwalk

/-! ### Directories that are made -/

/-- Nothing has changed but that there are more directories. -/
structure Grown (t t' : FileTree) : Prop where
  workingDirectory : t'.workingDirectory = t.workingDirectory
  get? : ∀ q, t'.get? q = t.get? q ∨ t.get? q = none ∧ t'.get? q = some .directory

namespace Grown

theorem refl (t : FileTree) : Grown t t :=
  ⟨rfl, fun _ => Or.inl rfl⟩

theorem trans (h : Grown t t') (h' : Grown t' t'') : Grown t t'' := by
  refine ⟨h'.workingDirectory.trans h.workingDirectory, fun q => ?_⟩
  rcases h.get? q with hsame | ⟨hnone, hmade⟩
  · simpa only [hsame] using h'.get? q
  · rcases h'.get? q with hsame' | ⟨hnone', -⟩
    · exact Or.inr ⟨hnone, hsame'.trans hmade⟩
    · cases hmade.symm.trans hnone'

theorem directory (h : Grown t t') (q : Location) (hq : t.get? q = some .directory) :
    t'.get? q = some .directory := by
  rcases h.get? q with hsame | ⟨-, hmade⟩
  · rwa [hsame]
  · exact hmade

theorem resolve (h : Grown t t') (hresolve : t.resolve path = .ok place) :
    t'.resolve path = .ok place :=
  resolve_of_directories h.workingDirectory h.directory hresolve

/-- A file that could be read is still what it was. -/
theorem stores {contents : Bytes} (h : Grown t t') (hstores : t.Stores path place contents) :
    t'.Stores path place contents := by
  obtain ⟨place', hresolve, hopen⟩ := bind_eq_ok.mp hstores.openFile
  obtain rfl := Except.ok.inj (hstores.resolve.symm.trans hresolve)
  have hsame : t'.get? place = t.get? place := by
    rcases h.get? place with hsame | ⟨hnone, -⟩
    · exact hsame
    · rw [hnone] at hopen
      cases hopen
  refine ⟨bind_eq_ok.mpr ⟨place, h.resolve hresolve, ?_⟩, ?_⟩
  · rwa [hsame]
  · rw [FileTree.read, hsame]
    exact hstores.read

theorem hasLines {lines : List Bytes} (h : Grown t t') (hlines : t.HasLines path lines) :
    t'.HasLines path lines := by
  obtain ⟨place, contents, hstores, hcontents⟩ := hlines
  exact ⟨place, contents, h.stores hstores, hcontents⟩

end Grown

theorem makeDirectory_eq_ok (h : t.makeDirectory path = .ok t') :
    ∃ place, t.resolve path = .ok place ∧ t.get? place = none ∧ t' = t.put place .directory := by
  obtain ⟨place, hresolve, hmade⟩ := bind_eq_ok.mp h
  split at hmade
  · cases hmade
  · next hnone => exact ⟨place, hresolve, hnone, (Except.ok.inj hmade).symm⟩

theorem grown_put (h : t.get? place = none) : Grown t (t.put place .directory) := by
  refine ⟨rfl, fun q => ?_⟩
  rw [get?_put]
  split
  · next hq => exact Or.inr ⟨hq ▸ h, rfl⟩
  · exact Or.inl rfl

theorem grown_of_makeDirectory (h : t.makeDirectory path = .ok t') : Grown t t' := by
  obtain ⟨place, -, hnone, rfl⟩ := makeDirectory_eq_ok h
  exact grown_put hnone

/-- Directories have been made for a path: some for those above it, at most `depth` paths in all, and
then perhaps its own. -/
inductive MadeFor : Path → Nat → FileTree → FileTree → Prop where
  | nothing {path : Path} {depth : Nat} {t : FileTree} : MadeFor path depth t t
  | above {path above : Path} {depth : Nat} {t t' : FileTree} (hparent : path.parent? = some above)
      (h : MadeFor above depth t t') : MadeFor path (depth + 1) t t'
  | own {path : Path} {depth : Nat} {t t' t'' : FileTree} (h : MadeFor path (depth + 1) t t')
      (hown : t'.makeDirectory path = .ok t'') : MadeFor path (depth + 1) t t''

theorem madeFor_makeDirectoriesUpTo (t : FileTree) (path : Path) (depth : Nat) :
    MadeFor path depth t (t.makeDirectoriesUpTo path depth).2 := by
  induction depth generalizing path with
  | zero => exact .nothing
  | succ depth ih =>
      rw [makeDirectoriesUpTo]
      split
      · exact .nothing
      · split
        · next hown => exact .own .nothing hown
        · split
          · split
            · exact .nothing
            · next above hparent =>
                have habove := MadeFor.above hparent (ih above)
                split
                · next hended => rwa [hended] at habove
                · next hended =>
                    rw [hended] at habove
                    split
                    · next hown => exact .own habove hown
                    · exact habove
          · exact .nothing

theorem MadeFor.grown {depth : Nat} (h : MadeFor path depth t t') : Grown t t' := by
  induction h with
  | nothing => exact .refl _
  | above _ _ ih => exact ih
  | own _ hown ih => exact ih.trans (grown_of_makeDirectory hown)

/-- Everything but the root is in something that is in the tree. -/
def Rooted (t : FileTree) : Prop :=
  ∀ entry ∈ t.nodes, entry.1 = [] ∨ (t.get? entry.1.dropLast).isSome

instance (t : FileTree) : Decidable t.Rooted :=
  inferInstanceAs (Decidable (∀ entry ∈ t.nodes, entry.1 = [] ∨ (t.get? entry.1.dropLast).isSome))

theorem Rooted.get?_concat (h : t.Rooted) (hnone : t.get? place = none) (name : Bytes) :
    t.get? (place ++ [name]) = none := by
  rw [get?, List.lookup_eq_none_iff]
  intro entry hentry
  rcases h entry hentry with hroot | habove
  · simp [hroot]
  · have hne : place ++ [name] ≠ entry.1 := by
      intro heq
      rw [← heq, List.dropLast_concat, hnone] at habove
      cases habove
    simpa using hne

theorem Rooted.get?_eq_none (h : t.Rooted) (hnone : t.get? stop = none) (hplace : stop <+: place) :
    t.get? place = none := by
  obtain ⟨names, rfl⟩ := hplace
  induction names generalizing stop with
  | nil => rwa [List.append_nil]
  | cons name names ih =>
      rw [List.append_cons]
      exact ih (h.get?_concat hnone name)

theorem get?_removeAll_of_prefix (t : FileTree) (h : stop <+: place) :
    (t.removeAll stop).get? place = none := by
  rw [removeAll, get?, lookup_filter fun q => !stop.isPrefixOf q, if_neg]
  simpa using h

end FileTree

namespace Job

open FileTree (Grown Rooted Touched)

variable {t t₀ t₁ : FileTree} {workdir : Option Path} {directory : Path} {passing : Bool}
  {place : Location}

/-- The ways to come by a directory. -/
inductive Prepared (t : FileTree) : Option Path → Path → Bool → FileTree → Prop where
  | given {directory : Path} :
      Prepared t (some directory) directory false (t.makeDirectories directory).2
  | fresh {directory : Path} {stop : Location} (hresolve : t.resolve directory = .ok stop)
      (hfree : t.get? stop = none) : Prepared t none directory true (t.put stop .directory)

theorem prepared_of_eq_ok (h : prepare workdir t = .ok (directory, passing, t₀)) :
    Prepared t workdir directory passing t₀ := by
  cases workdir with
  | some path =>
      obtain ⟨_, -, h⟩ := bind_eq_ok.mp h
      obtain ⟨rfl, hrest⟩ := Prod.mk.inj (Except.ok.inj h)
      obtain ⟨rfl, rfl⟩ := Prod.mk.inj hrest
      exact .given
  | none =>
      obtain ⟨⟨path, made⟩, hscratch, h⟩ := bind_eq_ok.mp h
      cases h
      obtain ⟨root, -, hscratch⟩ := bind_eq_ok.mp hscratch
      obtain ⟨made', hmade, hscratch⟩ := bind_eq_ok.mp hscratch
      cases hscratch
      obtain ⟨stop, hresolve, hfree, rfl⟩ := FileTree.makeDirectory_eq_ok hmade
      exact .fresh hresolve hfree

theorem grown_unprepared (workdir : Option Path) (t : FileTree) : Grown t (unprepared workdir t) := by
  cases workdir with
  | none => exact .refl t
  | some path => exact (t.madeFor_makeDirectoriesUpTo path _).grown

theorem Prepared.grown (h : Prepared t workdir directory passing t₀) : Grown t t₀ := by
  cases h with
  | given => exact grown_unprepared (some directory) t
  | fresh _ hfree => exact FileTree.grown_put hfree

theorem cleanUp_given (directory : Path) (t : FileTree) : cleanUp directory false t = t := rfl

theorem cleanUp_fresh {stop : Location} (h : t.resolve directory = .ok stop) :
    cleanUp directory true t = t.removeAll stop := by
  simp only [cleanUp, h]

/-- When the intermediate files have been written and the directory has been removed if it was a
fresh one, every other place holds what it held when the directories for them had been made. -/
theorem Prepared.left (h : Prepared t workdir directory passing t₀)
    (hrooted : workdir = none → t.Rooted) {paths : List Path} (htouched : Touched paths t₀ t₁)
    (hplace : ∀ path ∈ paths, t₀.resolve path ≠ .ok place) :
    (cleanUp directory passing t₁).get? place = (unprepared workdir t).get? place := by
  obtain ⟨places, hplaces, hrew⟩ := htouched
  have hsame : t₁.get? place = t₀.get? place := by
    refine hrew.get?_of_notMem place fun hmem => ?_
    obtain ⟨path, hpath, hresolve⟩ := hplaces place hmem
    exact hplace path hpath hresolve
  cases h with
  | given => exact hsame
  | @fresh directory stop hresolve hfree =>
      have hresolve₁ : t₁.resolve directory = .ok stop :=
        (hrew.resolve directory stop).mpr ((FileTree.grown_put hfree).resolve hresolve)
      rw [cleanUp_fresh hresolve₁]
      change (t₁.removeAll stop).get? place = t.get? place
      by_cases hbelow : stop <+: place
      · rw [FileTree.get?_removeAll_of_prefix t₁ hbelow, (hrooted rfl).get?_eq_none hfree hbelow]
      · have hne : place ≠ stop := fun heq => hbelow (heq ▸ List.prefix_rfl)
        rw [FileTree.get?_removeAll hbelow, hsame, FileTree.get?_put_of_ne hne]

end Job

end MapReduce
