import MapReduce.Proofs.Job.Setup
import MapReduce.Proofs.Variant
import MapReduce.Worker.Launch

/-!
# What earlier runs have left

Two trees may differ in the files that earlier runs have left at some places. The directory of a job
is made in both or in neither as it is made in the other, and a program is found in both.
-/

namespace MapReduce

namespace FileTree

variable {t t' t₁ t₁' : FileTree} {places : Set Location} {place : Location} {path : Path}
  {depth : Nat}

/-- Nothing, or an ordinary file. -/
def Leftover (node? : Option Node) : Prop :=
  node? = none ∨ ∃ contents, node? = some (.file contents)

theorem Leftover.ne {node? : Option Node} (h : Leftover node?) {node : Node}
    (hnode : ∀ contents, node ≠ .file contents) : node? ≠ some node := by
  rintro rfl
  rcases h with h | ⟨contents, h⟩
  · cases h
  · exact hnode contents (Option.some.inj h)

/-- The trees differ at most at these places, in what an ordinary file holds and in whether there is
one. -/
structure SameBut (places : Set Location) (t t' : FileTree) : Prop where
  workingDirectory : t'.workingDirectory = t.workingDirectory
  get? : ∀ q, t'.get? q = t.get? q ∨ q ∈ places ∧ Leftover (t.get? q) ∧ Leftover (t'.get? q)

namespace SameBut

theorem refl (places : Set Location) (t : FileTree) : SameBut places t t :=
  ⟨rfl, fun _ => Or.inl rfl⟩

/-- A file is left at one of the places. -/
theorem leave (h : SameBut places t t') (hplace : place ∈ places) (hold : Leftover (t.get? place))
    (contents : Bytes) : SameBut places t (t'.put place (.file contents)) where
  workingDirectory := h.workingDirectory
  get? q := by
    rw [get?_put]
    split
    · next hq =>
        rw [hq]
        exact Or.inr ⟨hplace, hold, Or.inr ⟨contents, rfl⟩⟩
    · exact h.get? q

theorem iff_of_not_file (h : SameBut places t t') {node : Node}
    (hnode : ∀ contents, node ≠ .file contents) (q : Location) :
    t'.get? q = some node ↔ t.get? q = some node := by
  rcases h.get? q with heq | ⟨-, hleft, hleft'⟩
  · rw [heq]
  · exact iff_of_false (hleft'.ne hnode) (hleft.ne hnode)

/-- The places at which the trees agree are all the others, and maybe more. -/
theorem variant (h : SameBut places t t') : Variant {q | t'.get? q = t.get? q} t t' where
  workingDirectory := h.workingDirectory
  directory := h.iff_of_not_file (by simp)
  fullDevice := h.iff_of_not_file (by simp)
  get?_of_mem _ hq := hq

theorem put (h : SameBut places t t') (place : Location) (node : Node) :
    SameBut places (t.put place node) (t'.put place node) where
  workingDirectory := h.workingDirectory
  get? q := by
    rw [get?_put, get?_put]
    split
    · exact Or.inl rfl
    · exact h.get? q

theorem diff (h : SameBut places t t') : SameBut {q | t'.get? q ≠ t.get? q} t t' where
  workingDirectory := h.workingDirectory
  get? q := by
    by_cases hq : t'.get? q = t.get? q
    · exact Or.inl hq
    · exact Or.inr ⟨hq, ((h.get? q).resolve_left hq).2⟩

end SameBut

/-! ### Directories -/

/-- The path leads to a directory that was there already or has been made. -/
structure Made (t : FileTree) (path : Path) (place : Location) (t₁ : FileTree) : Prop where
  resolve : t.resolve path = .ok place
  made : t.get? place = none ∧ t₁ = t.put place .directory
    ∨ t.get? place = some .directory ∧ t₁ = t

theorem SameBut.made (h : SameBut places t t') {place' : Location} (hmade : t.Made path place t₁)
    (hmade' : t'.Made path place' t₁') : SameBut places t₁ t₁' := by
  have hresolve := (h.variant.resolve path place').mp hmade'.resolve
  obtain rfl := Except.ok.inj (hmade.resolve.symm.trans hresolve)
  have hdir := h.variant.directory place
  rcases hmade.made with ⟨hnone, rfl⟩ | ⟨hsome, rfl⟩
  · rcases hmade'.made with ⟨-, rfl⟩ | ⟨hsome', -⟩
    · exact h.put place .directory
    · rw [hdir, hnone] at hsome'
      cases hsome'
  · rcases hmade'.made with ⟨hnone', -⟩ | ⟨-, rfl⟩
    · rw [← hdir, hnone'] at hsome
      cases hsome
    · exact h

theorem made_of_isDirectory (h : t.isDirectory path = true) : ∃ place, t.Made path place t := by
  unfold isDirectory at h
  split at h
  · next place hresolve => exact ⟨place, hresolve, Or.inr ⟨by simpa using h, rfl⟩⟩
  · cases h

theorem made_of_makeDirectory (h : t.makeDirectory path = .ok t₁) :
    ∃ place, t.Made path place t₁ := by
  obtain ⟨place, hresolve, hnone, rfl⟩ := makeDirectory_eq_ok h
  exact ⟨place, hresolve, Or.inl ⟨hnone, rfl⟩⟩

theorem not_resolve_of_notFound {e : IoError} (h : t.makeDirectory path = .error e)
    (hkind : e.kind = .notFound) : t.resolve path ≠ .ok place := by
  intro hresolve
  rw [makeDirectory, hresolve] at h
  cases hnode : t.get? place with
  | none => simp [bind, Except.bind, hnode] at h
  | some node =>
      simp only [bind, Except.bind, hnode, Except.error.injEq] at h
      subst h
      exact absurd hkind (by decide)

/-- A directory was made or was there already, or those above it had to be made first. -/
theorem made_of_makeDirectoriesUpTo (h : t.makeDirectoriesUpTo path (depth + 1) = (.ok (), t₁)) :
    path.isEmpty = true ∧ t₁ = t ∨ (∃ place, t.Made path place t₁)
      ∨ (∀ place, t.resolve path ≠ .ok place) ∧ ∃ above t₂ place, path.parent? = some above
        ∧ t.makeDirectoriesUpTo above depth = (.ok (), t₂) ∧ t₂.Made path place t₁ := by
  rw [makeDirectoriesUpTo] at h
  split at h
  · next hempty => exact Or.inl ⟨hempty, (Prod.mk.inj h).2.symm⟩
  · refine Or.inr ?_
    split at h
    · next hmade =>
        obtain ⟨-, rfl⟩ := h
        exact Or.inl (made_of_makeDirectory hmade)
    · next e hfailed =>
        split at h
        · next hkind =>
            refine Or.inr ⟨fun place => not_resolve_of_notFound hfailed hkind, ?_⟩
            split at h
            · cases h
            · next above hparent =>
                split at h
                · cases h
                · next t₂ habove =>
                    split at h
                    · next hmade =>
                        obtain ⟨-, rfl⟩ := h
                        obtain ⟨place, hmade⟩ := made_of_makeDirectory hmade
                        exact ⟨above, t₂, place, hparent, habove, hmade⟩
                    · obtain ⟨hok, rfl⟩ := Prod.mk.inj h
                      split at hok
                      · next hdir =>
                          obtain ⟨place, hmade⟩ := made_of_isDirectory hdir
                          exact ⟨above, t₂, place, hparent, habove, hmade⟩
                      · cases hok
        · obtain ⟨hok, rfl⟩ := Prod.mk.inj h
          split at hok
          · next hdir => exact Or.inl (made_of_isDirectory hdir)
          · cases hok

theorem SameBut.makeDirectoriesUpTo (h : SameBut places t t')
    (hmade : t.makeDirectoriesUpTo path depth = (.ok (), t₁))
    (hmade' : t'.makeDirectoriesUpTo path depth = (.ok (), t₁')) : SameBut places t₁ t₁' := by
  induction depth generalizing path t₁ t₁' with
  | zero =>
      obtain ⟨-, rfl⟩ := hmade
      obtain ⟨-, rfl⟩ := hmade'
      exact h
  | succ depth ih =>
      by_cases hempty : path.isEmpty = true
      · rw [FileTree.makeDirectoriesUpTo, if_pos hempty] at hmade hmade'
        obtain ⟨-, rfl⟩ := hmade
        obtain ⟨-, rfl⟩ := hmade'
        exact h
      · have hcases := (made_of_makeDirectoriesUpTo hmade).resolve_left fun h => hempty h.1
        have hcases' := (made_of_makeDirectoriesUpTo hmade').resolve_left fun h => hempty h.1
        rcases hcases with ⟨place, hone⟩ | ⟨hnot, above, t₂, place, hparent, habove, hone⟩
        · rcases hcases' with ⟨place', hone'⟩ | ⟨hnot', -⟩
          · exact h.made hone hone'
          · exact absurd ((h.variant.resolve path place).mpr hone.resolve) (hnot' place)
        · rcases hcases' with ⟨place', hone'⟩ | ⟨-, above', t₂', place', hparent', habove', hone'⟩
          · exact absurd ((h.variant.resolve path place').mp hone'.resolve) (hnot place')
          · obtain rfl := Option.some.inj (hparent.symm.trans hparent')
            exact (ih habove habove').made hone hone'

end FileTree

open FileTree (SameBut Variant)

theorem Job.prepare_sameBut {places : Set Location} {t t' t₀ t₀' : FileTree} {workdir : Option Path}
    {directory : Path} {passing passing' : Bool} (h : SameBut places t t')
    (hprepare : prepare workdir t = .ok (directory, passing, t₀))
    (hprepare' : prepare workdir t' = .ok (directory, passing', t₀')) :
    SameBut places t₀ t₀' ∧ passing' = passing := by
  cases workdir with
  | some path =>
      obtain ⟨_, hmade, hrest⟩ := bind_eq_ok.mp hprepare
      obtain ⟨_, hmade', hrest'⟩ := bind_eq_ok.mp hprepare'
      obtain ⟨-, hrest⟩ := Prod.mk.inj (Except.ok.inj hrest)
      obtain ⟨-, hrest'⟩ := Prod.mk.inj (Except.ok.inj hrest')
      obtain ⟨rfl, rfl⟩ := Prod.mk.inj hrest
      obtain ⟨rfl, rfl⟩ := Prod.mk.inj hrest'
      have hended : t.makeDirectories path = (.ok (), (t.makeDirectories path).2) :=
        Prod.ext hmade rfl
      have hended' : t'.makeDirectories path = (.ok (), (t'.makeDirectories path).2) :=
        Prod.ext hmade' rfl
      exact ⟨h.makeDirectoriesUpTo hended hended', rfl⟩
  | none =>
      have hfresh := prepared_of_eq_ok hprepare
      have hfresh' := prepared_of_eq_ok hprepare'
      cases hfresh with
      | @fresh _ stop hresolve _ =>
          cases hfresh' with
          | @fresh _ stop' hresolve' _ =>
              rw [h.variant.resolve] at hresolve'
              obtain rfl := Except.ok.inj (hresolve.symm.trans hresolve')
              exact ⟨h.put stop .directory, rfl⟩

/-- A program that is found in a tree is found in every variant in which it is a program too. -/
theorem Launch.findProgram_variant {A : Set Location} {t t' : FileTree} {program : Path}
    {arguments : List Bytes} (h : Variant A t t')
    (hprogram : ∀ q, t.get? q = some .workerProgram → t'.get? q = some .workerProgram)
    (hfound : findProgram program arguments t = .ok ()) :
    findProgram program arguments t' = .ok () := by
  unfold findProgram at hfound ⊢
  split
  · next hnul =>
      rw [if_pos hnul] at hfound
      cases hfound
  · next hnul =>
      rw [if_neg hnul] at hfound
      split
      · next hslash =>
          rw [if_pos hslash] at hfound
          cases hfound
      · next hslash =>
          rw [if_neg hslash] at hfound
          obtain ⟨place, hopen, hnode⟩ := bind_eq_ok.mp hfound
          have hplace : t.get? place = some .workerProgram := by
            split at hnode
            · assumption
            · cases hnode
          have hresolve := FileTree.openFile_eq_ok hopen
          have hagree : Variant (t.placesOf [program]) t t' := h.agree (by
            rintro q ⟨path, hpath, hq⟩
            obtain rfl := List.mem_singleton.mp hpath
            obtain rfl := Except.ok.inj (hresolve.symm.trans hq)
            rw [hprogram place hplace, hplace])
          obtain ⟨-, hopen'⟩ := hagree.openFile subset_rfl hopen
          refine bind_eq_ok.mpr ⟨place, hopen', ?_⟩
          rw [hprogram place hplace]

end MapReduce
