import Mathlib.Data.List.Forall2
import MapReduce.FileTree
import MapReduce.Proofs.Split

/-!
# Changes to the tree

Creating and writing files changes the tree at the places of those files only, and makes or removes
no directory. So a path leads to the same place before and after, and what stands elsewhere stays.
-/

namespace MapReduce

theorem bind_eq_ok {ε α β : Type} {x : Except ε α} {f : α → Except ε β} {b : β} :
    x >>= f = .ok b ↔ ∃ a, x = .ok a ∧ f a = .ok b := by
  cases x with
  | error e =>
      constructor
      · intro h
        cases h
      · rintro ⟨a, h, -⟩
        cases h
  | ok a =>
      constructor
      · intro h
        exact ⟨a, rfl, h⟩
      · rintro ⟨a', h, h'⟩
        cases h
        exact h'

theorem exists_mem_of_forall₂ {α β : Type} {r : α → β → Prop} {as : List α} {bs : List β}
    (h : List.Forall₂ r as bs) {b : β} (hb : b ∈ bs) : ∃ a ∈ as, r a b := by
  induction h with
  | nil => simp at hb
  | @cons a' b' as bs hab _ ih =>
      rcases List.mem_cons.mp hb with rfl | hb
      · exact ⟨a', by simp, hab⟩
      · obtain ⟨a, ha, hr⟩ := ih hb
        exact ⟨a, by simp [ha], hr⟩

namespace FileTree

variable {t t' t'' : FileTree} {places places' : List Location} {place : Location} {path : Path}
  {full : Bool} {contents : Bytes}

/-! ### Looking up what was put -/

theorem lookup_filter (keep : Location → Bool) (q : Location) (nodes : List (Location × Node)) :
    (nodes.filter fun entry => keep entry.1).lookup q
      = if keep q then nodes.lookup q else none := by
  induction nodes with
  | nil => simp
  | cons entry nodes ih =>
      obtain ⟨p, node⟩ := entry
      by_cases hq : q = p
      · subst hq
        by_cases hkeep : keep q = true
        · simp [hkeep]
        · simpa [hkeep] using ih
      · have hne : (q == p) = false := by simpa using hq
        rw [List.lookup_cons, hne, List.filter_cons]
        split
        · rw [List.lookup_cons, hne]
          exact ih
        · exact ih

theorem get?_put (t : FileTree) (p : Location) (node : Node) (q : Location) :
    (t.put p node).get? q = if q = p then some node else t.get? q := by
  rw [put, get?, List.lookup_append, lookup_filter fun q => q != p]
  by_cases hq : q = p
  · simp [hq]
  · have hne : (q == p) = false := by simpa using hq
    simp [hq, get?, List.lookup_cons, hne]

@[simp]
theorem get?_put_self (t : FileTree) (p : Location) (node : Node) :
    (t.put p node).get? p = some node := by
  simp [get?_put]

theorem get?_put_of_ne {q p : Location} (hne : q ≠ p) (t : FileTree) (node : Node) :
    (t.put p node).get? q = t.get? q := by
  simp [get?_put, hne]

theorem get?_removeAll {stop : Location} (h : ¬ stop <+: place) :
    (t.removeAll stop).get? place = t.get? place := by
  have hkeep : (!stop.isPrefixOf place) = true := by
    rw [Bool.not_eq_true', ← Bool.not_eq_true]
    exact mt List.isPrefixOf_iff_prefix.mp h
  rw [removeAll, get?, lookup_filter fun q => !stop.isPrefixOf q, if_pos hkeep]
  rfl

/-! ### Changes that keep the directories -/

/-- The trees differ at most at these places, and in no directory. -/
structure Rewritten (places : List Location) (t t' : FileTree) : Prop where
  workingDirectory : t'.workingDirectory = t.workingDirectory
  get?_of_notMem : ∀ q, q ∉ places → t'.get? q = t.get? q
  directory : ∀ q, t'.get? q = some .directory ↔ t.get? q = some .directory

namespace Rewritten

theorem refl (places : List Location) (t : FileTree) : Rewritten places t t :=
  ⟨rfl, fun _ _ => rfl, fun _ => Iff.rfl⟩

theorem trans (h : Rewritten places t t') (h' : Rewritten places t' t'') :
    Rewritten places t t'' where
  workingDirectory := h'.workingDirectory.trans h.workingDirectory
  get?_of_notMem q hq := (h'.get?_of_notMem q hq).trans (h.get?_of_notMem q hq)
  directory q := (h'.directory q).trans (h.directory q)

theorem symm (h : Rewritten places t t') : Rewritten places t' t where
  workingDirectory := h.workingDirectory.symm
  get?_of_notMem q hq := (h.get?_of_notMem q hq).symm
  directory q := (h.directory q).symm

theorem mono (h : Rewritten places t t') (hsub : places ⊆ places') : Rewritten places' t t' where
  workingDirectory := h.workingDirectory
  get?_of_notMem q hq := h.get?_of_notMem q fun hmem => hq (hsub hmem)
  directory := h.directory

theorem read_of_notMem (h : Rewritten places t t') (hplace : place ∉ places) :
    t'.read place = t.read place := by
  rw [read, read, h.get?_of_notMem place hplace]

theorem walk (h : Rewritten places t t') (names : List Bytes) (start stop : Location) :
    t'.walk start names = .ok stop ↔ t.walk start names = .ok stop := by
  induction names generalizing start with
  | nil => rfl
  | cons name names ih =>
      by_cases hdir : t.get? start = some .directory
      · simp only [FileTree.walk, hdir, (h.directory start).mpr hdir]
        split
        · exact ih start
        · split
          · exact ih start.dropLast
          · split
            · simp
            · exact ih (start ++ [name])
      · have hdir' : t'.get? start ≠ some .directory := fun h' => hdir ((h.directory start).mp h')
        have hstuck : ∀ u : FileTree, u.get? start ≠ some .directory →
            u.walk start (name :: names) ≠ .ok stop := by
          intro u hu
          rw [FileTree.walk]
          split <;> simp_all
        constructor
        · intro hok
          exact absurd hok (hstuck t' hdir')
        · intro hok
          exact absurd hok (hstuck t hdir)

theorem resolve (h : Rewritten places t t') (path : Path) (stop : Location) :
    t'.resolve path = .ok stop ↔ t.resolve path = .ok stop := by
  simp only [FileTree.resolve, origin, h.workingDirectory]
  cases checkPath path with
  | error e => rfl
  | ok _ => exact h.walk _ _ _

theorem checkScratch (h : Rewritten places t t') (directory : Path) :
    t'.checkScratch directory = .ok () ↔ t.checkScratch directory = .ok () := by
  have hparent : ∀ path stop, t'.resolveParent path = .ok stop ↔ t.resolveParent path = .ok stop := by
    intro path stop
    simp only [FileTree.resolveParent, origin, h.workingDirectory]
    cases checkPath path with
    | error e => rfl
    | ok _ => exact h.walk _ _ _
  simp only [FileTree.checkScratch, absolutePath, h.workingDirectory, bind_eq_ok, hparent]

end Rewritten

theorem rewritten_put {node : Node} (hold : t.get? place ≠ some .directory)
    (hnew : node ≠ .directory) : Rewritten [place] t (t.put place node) where
  workingDirectory := rfl
  get?_of_notMem q hq := get?_put_of_ne (by simpa using hq) t node
  directory q := by
    rw [get?_put]
    split
    · next hq => simp [hq, hold, hnew]
    · rfl

def Separate (t : FileTree) (p q : Path) : Prop :=
  ∀ a b, t.resolve p = .ok a → t.resolve q = .ok b → a ≠ b

instance (t : FileTree) (p q : Path) : Decidable (t.Separate p q) :=
  match hp : t.resolve p, hq : t.resolve q with
  | .ok a, .ok b => decidable_of_iff (a ≠ b)
      ⟨fun hne a' b' ha hb => by
        obtain rfl := Except.ok.inj (hp.symm.trans ha)
        obtain rfl := Except.ok.inj (hq.symm.trans hb)
        exact hne, fun h => h a b hp hq⟩
  | .error e, _ => .isTrue fun a _ ha => nomatch hp.symm.trans ha
  | .ok _, .error e => .isTrue fun _ b _ hb => nomatch hq.symm.trans hb

theorem Separate.symm {p q : Path} (h : t.Separate p q) : t.Separate q p :=
  fun a b ha hb hab => h b a hb ha hab.symm

theorem Separate.rewritten {p q : Path} (h : t.Separate p q) (hrew : Rewritten places t t') :
    t'.Separate p q :=
  fun a b ha hb => h a b ((hrew.resolve p a).mp ha) ((hrew.resolve q b).mp hb)

theorem notMem_of_separate {paths : List Path}
    (hplaces : List.Forall₂ (fun path place => t.resolve path = .ok place) paths places)
    (hpaths : ∀ p ∈ paths, t.Separate path p) (hresolve : t.resolve path = .ok place) :
    place ∉ places := by
  intro hmem
  obtain ⟨p, hp, hplace⟩ := exists_mem_of_forall₂ hplaces hmem
  exact hpaths p hp place place hresolve hplace rfl

theorem nodup_of_separate {paths : List Path} (hpaths : paths.Pairwise t.Separate)
    (hplaces : List.Forall₂ (fun path place => t.resolve path = .ok place) paths places) :
    places.Nodup := by
  induction hplaces with
  | nil => exact List.nodup_nil
  | @cons path place paths places hresolve hrest ih =>
      obtain ⟨hpath, hpaths⟩ := List.pairwise_cons.mp hpaths
      exact List.nodup_cons.mpr ⟨notMem_of_separate hrest hpath hresolve, ih hpaths⟩

/-! ### Creating and writing files -/

/-- What an ordinary file or the full device holds; nothing else is open for writing. -/
inductive Holds (t : FileTree) (place : Location) : (full : Bool) → Bytes → Prop where
  | file {contents : Bytes} (h : t.get? place = some (.file contents)) : Holds t place false contents
  | device (h : t.get? place = some .fullDevice) : Holds t place true []

theorem Holds.read (h : t.Holds place full contents) : t.read place = .ok contents := by
  cases h with
  | file h => rw [FileTree.read, h]
  | device h => rw [FileTree.read, h]

theorem Holds.rewritten (h : t.Holds place full contents) (hrew : Rewritten places t t')
    (hplace : place ∉ places) : t'.Holds place full contents := by
  have hget := hrew.get?_of_notMem place hplace
  cases h with
  | file h => exact .file (hget.trans h)
  | device h => exact .device (hget.trans h)

theorem openFile_eq_ok (h : t.openFile path = .ok place) : t.resolve path = .ok place := by
  obtain ⟨place', hresolve, hopen⟩ := bind_eq_ok.mp h
  rw [hresolve]
  split at hopen
  · simp at hopen
  · exact hopen
  · split at hopen
    · simp at hopen
    · exact hopen

theorem openFile_of_resolve (hresolve : t.resolve path = .ok place) (hsome : t.get? place ≠ none)
    (hslash : path.endsInSlash = false) : t.openFile path = .ok place := by
  refine bind_eq_ok.mpr ⟨place, hresolve, ?_⟩
  split
  · next h => exact absurd h hsome
  · rfl
  · simp [hslash]

theorem Rewritten.openFile (h : Rewritten places t t') (hplace : place ∉ places)
    (hopen : t.openFile path = .ok place) : t'.openFile path = .ok place := by
  obtain ⟨place', hresolve, hkind⟩ := bind_eq_ok.mp hopen
  obtain rfl := Except.ok.inj ((openFile_eq_ok hopen).symm.trans hresolve)
  refine bind_eq_ok.mpr ⟨place, (h.resolve path place).mpr hresolve, ?_⟩
  rw [h.get?_of_notMem place hplace]
  exact hkind

/-- Opening and reading a path gives these contents. -/
structure Stores (t : FileTree) (path : Path) (place : Location) (contents : Bytes) : Prop where
  openFile : t.openFile path = .ok place
  read : t.read place = .ok contents

theorem Stores.rewritten (h : t.Stores path place contents) (hrew : Rewritten places t t')
    (hplace : place ∉ places) : t'.Stores path place contents :=
  ⟨hrew.openFile hplace h.openFile, (hrew.read_of_notMem hplace).trans h.read⟩

theorem stores_of_bind_read (h : t.openFile path >>= t.read = .ok contents) :
    ∃ place, t.Stores path place contents := by
  obtain ⟨place, hopen, hread⟩ := bind_eq_ok.mp h
  exact ⟨place, hopen, hread⟩

theorem Stores.resolve (h : t.Stores path place contents) : t.resolve path = .ok place :=
  openFile_eq_ok h.openFile

theorem Stores.openFile_bind_read (h : t.Stores path place contents) :
    t.openFile path >>= t.read = .ok contents :=
  bind_eq_ok.mpr ⟨place, h.openFile, h.read⟩

theorem Holds.stores (h : t.Holds place full contents) (hresolve : t.resolve path = .ok place)
    (hslash : path.endsInSlash = false) : t.Stores path place contents := by
  refine ⟨openFile_of_resolve hresolve ?_ hslash, h.read⟩
  cases h with
  | file h => simp [h]
  | device h => simp [h]

theorem forall₂_stores {paths : List Path} {places : List Location} {full : Nat → Bool}
    {contents : Nat → Bytes}
    (hplaces : List.Forall₂ (fun path place => t.resolve path = .ok place) paths places)
    (hslash : ∀ path ∈ paths, path.endsInSlash = false)
    (hholds : ∀ (i : Nat) (place : Location), places[i]? = some place →
      t.Holds place (full i) (contents i)) :
    List.Forall₂ (fun path bs => ∃ place, t.Stores path place bs) paths
      ((List.range paths.length).map contents) := by
  rw [List.forall₂_iff_get]
  refine ⟨by simp, ?_⟩
  intro i hi _
  have hi' : i < places.length := hplaces.length_eq ▸ hi
  have hstores := (hholds i places[i] (List.getElem?_eq_getElem hi')).stores
    ((List.forall₂_iff_get.mp hplaces).2 i hi hi') (hslash _ (List.getElem_mem hi))
  simp only [List.get_eq_getElem, List.getElem_map, List.getElem_range]
  exact ⟨places[i], hstores⟩

theorem create_eq_ok (h : t.create path = .ok (place, t')) :
    t.resolve path = .ok place ∧ Rewritten [place] t t'
      ∧ ∃ full, t'.Holds place full [] ∧ (full = true → t.get? place = some .fullDevice) := by
  unfold create at h
  split at h
  · obtain ⟨_, -, h⟩ := bind_eq_ok.mp h
    simp at h
  · obtain ⟨place', hresolve, h⟩ := bind_eq_ok.mp h
    rw [hresolve]
    have hfile : t.get? place' ≠ some .directory → (place', t.put place' (.file [])) = (place, t') →
        (Except.ok place' : Except IoError Location) = .ok place ∧ Rewritten [place] t t'
          ∧ ∃ full, t'.Holds place full []
            ∧ (full = true → t.get? place = some .fullDevice) := by
      rintro hdir ⟨⟩
      exact ⟨rfl, rewritten_put hdir (by simp), false, .file (get?_put_self _ _ _), by simp⟩
    split at h
    · simp at h
    · next hdevice =>
        obtain ⟨rfl, rfl⟩ := Prod.mk.inj (Except.ok.inj h)
        exact ⟨rfl, .refl _ _, true, .device hdevice, fun _ => hdevice⟩
    · next hnone => exact hfile (by simp [hnone]) (Except.ok.inj h)
    · next hold => exact hfile (by simp [hold]) (Except.ok.inj h)
    · next hprogram => exact hfile (by simp [hprogram]) (Except.ok.inj h)

structure Creatable (t : FileTree) (path : Path) (place : Location) : Prop where
  resolve : t.resolve path = .ok place
  not_directory : t.get? place ≠ some .directory
  not_endsInSlash : path.endsInSlash = false

theorem Creatable.rewritten (h : t.Creatable path place) (hrew : Rewritten places t t') :
    t'.Creatable path place where
  resolve := (hrew.resolve path place).mpr h.resolve
  not_directory hdir := h.not_directory ((hrew.directory place).mp hdir)
  not_endsInSlash := h.not_endsInSlash

/-- An ordinary file can be created at the path, or an ordinary file there can be emptied. -/
def Ordinary (t : FileTree) (path : Path) : Prop :=
  ∃ place, t.Creatable path place ∧ t.get? place ≠ some .fullDevice

instance (t : FileTree) (path : Path) : Decidable (t.Ordinary path) :=
  match h : t.resolve path with
  | .ok place => decidable_of_iff (t.get? place ≠ some .directory ∧ path.endsInSlash = false
        ∧ t.get? place ≠ some .fullDevice)
      ⟨fun ⟨hdir, hslash, hfull⟩ => ⟨place, ⟨h, hdir, hslash⟩, hfull⟩,
        fun ⟨place', hplace, hfull⟩ => by
          obtain rfl := Except.ok.inj (h.symm.trans hplace.resolve)
          exact ⟨hplace.not_directory, hplace.not_endsInSlash, hfull⟩⟩
  | .error e => .isFalse fun ⟨_, hplace, _⟩ => nomatch h.symm.trans hplace.resolve

/-- At most the files at these paths have changed. -/
def Touched (paths : List Path) (t t' : FileTree) : Prop :=
  ∃ places, (∀ q ∈ places, ∃ path ∈ paths, t.resolve path = .ok q) ∧ Rewritten places t t'

namespace Touched

variable {paths paths' : List Path}

theorem of_resolve (hresolve : t.resolve path = .ok place) (hrew : Rewritten [place] t t') :
    Touched [path] t t' :=
  ⟨[place], by simpa using hresolve, hrew⟩

theorem of_forall₂ (hplaces : List.Forall₂ (fun path place => t.resolve path = .ok place) paths places)
    (hrew : Rewritten places t t') : Touched paths t t' :=
  ⟨places, fun _ hq => exists_mem_of_forall₂ hplaces hq, hrew⟩

theorem mono (h : Touched paths t t') (hsub : paths ⊆ paths') : Touched paths' t t' := by
  obtain ⟨places, hplaces, hrew⟩ := h
  refine ⟨places, ?_, hrew⟩
  intro q hq
  obtain ⟨path, hpath, hresolve⟩ := hplaces q hq
  exact ⟨path, hsub hpath, hresolve⟩

theorem trans (h : Touched paths t t') (h' : Touched paths t' t'') : Touched paths t t'' := by
  obtain ⟨places, hplaces, hrew⟩ := h
  obtain ⟨places', hplaces', hrew'⟩ := h'
  refine ⟨places ++ places', ?_, (hrew.mono (by simp)).trans (hrew'.mono (by simp))⟩
  intro q hq
  rcases List.mem_append.mp hq with hq | hq
  · exact hplaces q hq
  · obtain ⟨path, hpath, hresolve⟩ := hplaces' q hq
    exact ⟨path, hpath, (hrew.resolve path q).mp hresolve⟩

theorem refl (paths : List Path) (t : FileTree) : Touched paths t t :=
  ⟨[], by simp, .refl _ _⟩

theorem symm (h : Touched paths t t') : Touched paths t' t := by
  obtain ⟨places, hplaces, hrew⟩ := h
  refine ⟨places, ?_, hrew.symm⟩
  intro q hq
  obtain ⟨path, hpath, hresolve⟩ := hplaces q hq
  exact ⟨path, hpath, (hrew.resolve path q).mpr hresolve⟩

theorem resolve (h : Touched paths t t') (path : Path) (stop : Location) :
    t'.resolve path = .ok stop ↔ t.resolve path = .ok stop := by
  obtain ⟨places, -, hrew⟩ := h
  exact hrew.resolve path stop

theorem checkScratch (h : Touched paths t t') (directory : Path) :
    t'.checkScratch directory = .ok () ↔ t.checkScratch directory = .ok () := by
  obtain ⟨places, -, hrew⟩ := h
  exact hrew.checkScratch directory

theorem separate {p q : Path} (h : Touched paths t t') (hseparate : t.Separate p q) :
    t'.Separate p q := by
  obtain ⟨places, -, hrew⟩ := h
  exact hseparate.rewritten hrew

theorem rewritten_of_separate (h : Touched paths t t') (hresolve : t.resolve path = .ok place)
    (hpaths : ∀ p ∈ paths, t.Separate path p) :
    ∃ places, place ∉ places ∧ Rewritten places t t' := by
  obtain ⟨places, hplaces, hrew⟩ := h
  refine ⟨places, ?_, hrew⟩
  intro hmem
  obtain ⟨p, hp, hplace⟩ := hplaces place hmem
  exact hpaths p hp place place hresolve hplace rfl

theorem get?_of_separate (h : Touched paths t t') (hresolve : t.resolve path = .ok place)
    (hpaths : ∀ p ∈ paths, t.Separate path p) : t'.get? place = t.get? place := by
  obtain ⟨places, hplace, hrew⟩ := h.rewritten_of_separate hresolve hpaths
  exact hrew.get?_of_notMem place hplace

theorem openFile (h : Touched paths t t') (hopen : t.openFile path = .ok place)
    (hpaths : ∀ p ∈ paths, t.Separate path p) : t'.openFile path = .ok place := by
  obtain ⟨places, hplace, hrew⟩ := h.rewritten_of_separate (openFile_eq_ok hopen) hpaths
  exact hrew.openFile hplace hopen

theorem stores (h : Touched paths t t') (hstores : t.Stores path place contents)
    (hpaths : ∀ p ∈ paths, t.Separate path p) : t'.Stores path place contents := by
  obtain ⟨places, hplace, hrew⟩ := h.rewritten_of_separate hstores.resolve hpaths
  exact hstores.rewritten hrew hplace

theorem creatable (h : Touched paths t t') (hplace : t.Creatable path place) :
    t'.Creatable path place := by
  obtain ⟨places, -, hrew⟩ := h
  exact hplace.rewritten hrew

theorem ordinary (h : Touched paths t t') (hordinary : t.Ordinary path)
    (hpaths : ∀ p ∈ paths, t.Separate path p) : t'.Ordinary path := by
  obtain ⟨place, hplace, hnot⟩ := hordinary
  rw [← h.get?_of_separate hplace.resolve hpaths] at hnot
  exact ⟨place, h.creatable hplace, hnot⟩

end Touched

theorem Creatable.create (h : t.Creatable path place) : ∃ t', t.create path = .ok (place, t') := by
  have hnot := h.not_directory
  rw [FileTree.create, h.not_endsInSlash, h.resolve]
  cases hnode : t.get? place with
  | none => exact ⟨_, bind_eq_ok.mpr ⟨place, rfl, by rw [hnode]⟩⟩
  | some node =>
      cases node with
      | directory => exact absurd hnode hnot
      | file bs => exact ⟨_, bind_eq_ok.mpr ⟨place, rfl, by rw [hnode]⟩⟩
      | fullDevice => exact ⟨_, bind_eq_ok.mpr ⟨place, rfl, by rw [hnode]⟩⟩
      | workerProgram => exact ⟨_, bind_eq_ok.mpr ⟨place, rfl, by rw [hnode]⟩⟩

theorem writeAt_of_file {old : Bytes} (h : t.get? place = some (.file old)) (bs : Bytes) :
    t.writeAt place old.length bs = t.put place (.file (old ++ bs)) := by
  have hnothing : old.drop (old.length + bs.length) = [] := List.drop_eq_nil_of_le (by omega)
  rw [writeAt, h]
  simp [hnothing]

theorem rewritten_writeAt (t : FileTree) (place : Location) (offset : Nat) (bs : Bytes) :
    Rewritten [place] t (t.writeAt place offset bs) := by
  unfold writeAt
  split
  · next hold => exact rewritten_put (by simp [hold]) (by simp)
  · exact .refl _ _

/-! ### Files of lines -/

variable {lines : List Bytes}

/-- The file at a path has these lines. The last one may lack its newline. -/
def HasLines (t : FileTree) (path : Path) (lines : List Bytes) : Prop :=
  ∃ place contents, t.Stores path place contents ∧ Bytes.lines contents = lines

/-- The file at a path is these lines, each with a newline behind it. -/
structure HoldsLines (t : FileTree) (path : Path) (lines : List Bytes) : Prop where
  stores : ∃ place, t.Stores path place (lines.flatMap Bytes.terminate)
  newline_notMem : ∀ l ∈ lines, Bytes.newline ∉ l

theorem HasLines.newline_notMem (h : t.HasLines path lines) : ∀ l ∈ lines, Bytes.newline ∉ l := by
  obtain ⟨-, contents, -, rfl⟩ := h
  exact Bytes.not_mem_of_mem_lines contents

theorem newline_notMem_flatten {paths : List Path} {texts : List (List Bytes)}
    (h : List.Forall₂ t.HasLines paths texts) : ∀ l ∈ texts.flatten, Bytes.newline ∉ l := by
  intro l hl
  obtain ⟨lines, hlines, hl⟩ := List.mem_flatten.mp hl
  obtain ⟨path, -, htext⟩ := exists_mem_of_forall₂ h hlines
  exact htext.newline_notMem l hl

theorem forall₂_holdsLines {paths : List Path} {places : List Location} {shares : Nat → List Bytes}
    (hplaces : List.Forall₂ (fun path place => t.resolve path = .ok place) paths places)
    (hslash : ∀ path ∈ paths, path.endsInSlash = false)
    (hholds : ∀ (i : Nat) (place : Location), places[i]? = some place →
      t.Holds place false ((shares i).flatMap Bytes.terminate))
    (hfree : ∀ i, ∀ l ∈ shares i, Bytes.newline ∉ l) :
    List.Forall₂ t.HoldsLines paths ((List.range paths.length).map shares) := by
  have hstored := forall₂_stores hplaces hslash hholds
  apply List.forall₂_map_right_iff.mpr
  apply (List.forall₂_map_right_iff.mp hstored).imp
  intro path i hshare
  exact ⟨hshare, hfree i⟩

end FileTree

end MapReduce
