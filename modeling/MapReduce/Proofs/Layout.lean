import MapReduce.Job.Layout
import MapReduce.Proofs.FileTree
import MapReduce.Proofs.Number

/-!
# Intermediate files are separate

The intermediate files of a job lie in one directory under names that are all different, so no two
of them are the same file, whatever the directory is.
-/

namespace MapReduce

structure Path.Plain (name : Bytes) : Prop where
  ne_nil : name ≠ []
  slash_notMem : Bytes.slash ∉ name
  ne_dot : name ≠ [0x2E]
  ne_dots : name ≠ [0x2E, 0x2E]

namespace Path

variable {directory name : Path}

theorem Plain.splitWhere_eq (h : Plain name) : splitWhere (· == Bytes.slash) name = [name] :=
  splitWhere_of_forall fun b hb => by
    simpa using fun hs : b = Bytes.slash => h.slash_notMem (hs ▸ hb)

theorem Plain.names_eq (h : Plain name) : names name = [name] := by
  simp [names, h.splitWhere_eq, h.ne_nil]

theorem names_append_slash (directory rest : Path) :
    names (directory ++ Bytes.slash :: rest) = names directory ++ names rest := by
  rw [names, splitWhere_append_cons (by simp), List.filter_append]
  rfl

theorem names_join (h : Plain name) : names (join directory name) = names directory ++ [name] := by
  unfold join
  split
  · next hempty =>
      rw [List.isEmpty_iff.mp hempty, h.names_eq]
      rfl
  · split
    · next hslash =>
        obtain ⟨above, rfl⟩ : ∃ above, directory = above ++ [Bytes.slash] := by
          have hlast : directory.getLast? = some Bytes.slash := by simpa [endsInSlash] using hslash
          obtain ⟨above, habove⟩ := List.getLast?_eq_some_iff.mp hlast
          exact ⟨above, habove⟩
        rw [List.append_assoc, List.singleton_append, names_append_slash, names_append_slash,
          h.names_eq]
        simp [names, splitWhere]
    · rw [names_append_slash, h.names_eq]

theorem isAbsolute_join (h : Plain name) : isAbsolute (join directory name) = isAbsolute directory := by
  have hname : name.head? ≠ some Bytes.slash := by
    intro hhead
    exact h.slash_notMem (List.mem_of_head? hhead)
  unfold join isAbsolute
  split
  · next hempty => simpa [List.isEmpty_iff.mp hempty] using hname
  · next hne =>
      obtain ⟨b, rest, rfl⟩ := List.exists_cons_of_ne_nil (mt List.isEmpty_iff.mpr hne)
      split <;> simp

theorem not_endsInSlash_join (h : Plain name) : endsInSlash (join directory name) = false := by
  have hname : name.getLast? ≠ some Bytes.slash := by
    intro hlast
    exact h.slash_notMem (List.mem_of_getLast? hlast)
  have hlast : ∀ start : Bytes, (start ++ name).getLast? = name.getLast? := by
    intro start
    rw [List.getLast?_append, Option.or_of_isSome (by simpa using h.ne_nil)]
  have hjoin : ∃ start, join directory name = start ++ name := by
    unfold join
    split
    · exact ⟨[], rfl⟩
    · split
      · exact ⟨directory, rfl⟩
      · exact ⟨directory ++ [Bytes.slash], by simp⟩
  obtain ⟨start, hstart⟩ := hjoin
  simpa [endsInSlash, hstart, hlast] using hname

end Path

namespace FileTree

variable {t : FileTree} {directory name : Path} {place start parent : Location}

theorem walk_append (names more : List Bytes) :
    t.walk start (names ++ more) = (t.walk start names >>= fun stop => t.walk stop more) := by
  induction names generalizing start with
  | nil => rfl
  | cons n names ih =>
      rw [List.cons_append, walk, walk]
      split
      · rfl
      · split
        · exact ih
        · split
          · exact ih
          · split
            · rfl
            · exact ih
      · rfl

theorem walk_plain (h : Path.Plain name) (hwalk : t.walk parent [name] = .ok place) :
    place = parent ++ [name] := by
  rw [walk] at hwalk
  split at hwalk
  · simp at hwalk
  · rw [if_neg h.ne_dot, if_neg h.ne_dots] at hwalk
    split at hwalk
    · simp at hwalk
    · exact (Except.ok.inj hwalk).symm
  · simp at hwalk

theorem resolve_join (h : Path.Plain name)
    (hresolve : t.resolve (Path.join directory name) = .ok place) :
    ∃ parent, t.walk (t.origin directory) directory.names = .ok parent
      ∧ place = parent ++ [name] := by
  obtain ⟨_, -, hwalk⟩ := bind_eq_ok.mp hresolve
  rw [Path.names_join h, origin, Path.isAbsolute_join h, ← origin, walk_append] at hwalk
  obtain ⟨parent, hparent, hname⟩ := bind_eq_ok.mp hwalk
  exact ⟨parent, hparent, walk_plain h hname⟩

theorem separate_join {name' : Path} (t : FileTree) (directory : Path) (h : Path.Plain name)
    (h' : Path.Plain name') (hne : name ≠ name') :
    t.Separate (Path.join directory name) (Path.join directory name') := by
  intro a b ha hb hab
  obtain ⟨parent, hparent, rfl⟩ := resolve_join h ha
  obtain ⟨parent', hparent', rfl⟩ := resolve_join h' hb
  obtain rfl := Except.ok.inj (hparent.symm.trans hparent')
  exact hne (List.singleton_inj.mp (List.append_cancel_left hab))

end FileTree

namespace JobLayout

def stages : List String := ["map-input", "map-output", "reduce-input", "reduce-output"]

theorem hyphen_notMem_showCount (i : Nat) : 0x2D ∉ Utf8.encode (Text.showCount i) := by
  intro hmem
  have := (Workload.toNat_of_mem_encodeCount hmem).1
  revert this
  decide

theorem fileName_inj {stage stage' : String} {i j : Nat}
    (h : fileName stage i = fileName stage' j) :
    Bytes.ofString stage = Bytes.ofString stage' ∧ i = j := by
  have hreverse := congrArg List.reverse h
  simp only [fileName, List.reverse_append, List.reverse_cons, List.append_assoc,
    List.singleton_append] at hreverse
  obtain ⟨hcount, hstage⟩ := cut_unique
    (fun hmem => hyphen_notMem_showCount i (List.mem_reverse.mp hmem))
    (fun hmem => hyphen_notMem_showCount j (List.mem_reverse.mp hmem)) hreverse
  exact ⟨List.reverse_injective hstage,
    Workload.encodeCount_injective (List.reverse_injective hcount)⟩

theorem plain_fileName {stage : String} (hstage : stage ∈ stages) (i : Nat) :
    Path.Plain (fileName stage i) := by
  have hslash : Bytes.slash ∉ Bytes.ofString stage := by
    revert hstage
    revert stage
    decide
  have hhyphen : (0x2D : UInt8) ∈ fileName stage i := by simp [fileName]
  refine ⟨fun h => by simp [h] at hhyphen, ?_, ?_, ?_⟩
  · intro hmem
    rcases List.mem_append.mp hmem with hmem | hmem
    · exact hslash hmem
    · rcases List.mem_cons.mp hmem with hmem | hmem
      · exact absurd hmem (by decide)
      · have := (Workload.toNat_of_mem_encodeCount hmem).1
        revert this
        decide
  · intro h
    rw [h] at hhyphen
    revert hhyphen
    decide
  · intro h
    rw [h] at hhyphen
    revert hhyphen
    decide

variable {t : FileTree} {directory : Path} {n : Nat} {stage stage' : String}

theorem pairwise_separate_files (t : FileTree) (directory : Path) (n : Nat)
    (hstage : stage ∈ stages) : (files directory n stage).Pairwise t.Separate := by
  rw [files, List.pairwise_map]
  refine List.nodup_range.imp fun hij => ?_
  exact FileTree.separate_join t directory (plain_fileName hstage _) (plain_fileName hstage _)
    fun h => hij (fileName_inj h).2

theorem separate_of_mem_files (t : FileTree) (hstage : stage ∈ stages) (hstage' : stage' ∈ stages)
    (hne : stage ≠ stage') {p q : Path} (hp : p ∈ files directory n stage)
    (hq : q ∈ files directory n stage') : t.Separate p q := by
  obtain ⟨i, -, rfl⟩ := List.mem_map.mp hp
  obtain ⟨j, -, rfl⟩ := List.mem_map.mp hq
  refine FileTree.separate_join t directory (plain_fileName hstage i) (plain_fileName hstage' j)
    fun h => hne (String.toList_injective (Utf8.encode_injective (fileName_inj h).1))

theorem not_endsInSlash_of_mem_files (hstage : stage ∈ stages) {p : Path}
    (hp : p ∈ files directory n stage) : p.endsInSlash = false := by
  obtain ⟨i, -, rfl⟩ := List.mem_map.mp hp
  exact Path.not_endsInSlash_join (plain_fileName hstage i)

@[simp]
theorem length_files (directory : Path) (n : Nat) (stage : String) :
    (files directory n stage).length = n := by
  simp [files]

theorem files_ne_nil (directory : Path) (hn : 0 < n) (stage : String) :
    files directory n stage ≠ [] := by
  rw [← List.length_pos_iff, length_files]
  exact hn

end JobLayout

end MapReduce
