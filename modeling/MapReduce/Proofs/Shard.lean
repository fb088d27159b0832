import MapReduce.Proofs.LineReader
import MapReduce.Proofs.OutputFiles
import MapReduce.Proofs.Shares
import MapReduce.Shard

/-!
# Dealing lines

The lines of the input go to the shards in turn, each with a newline behind it, and nothing else
does. The cursor that wraps around stands for the number of the line, up to multiples of the number
of shards, so shard `i` is given the lines whose numbers leave `i`. Together the shards hold every
line of the input once.
-/

namespace MapReduce.Shard

open FileTree (Rewritten)
open OutputFiles (Hold)

variable {t t₀ t' : FileTree} {input : Path} {paths : List Path} {contents : Bytes} {n next : Nat}
  {places : List Location} {files : OutputFiles} {counts : List Nat} {lines : List Bytes}

/-- Of lines that are numbered from zero on, those that fall to shard `i` of `n`. -/
def dealt (n i : Nat) (lines : List Bytes) : List Bytes :=
  (lines.zipIdx.filter fun entry => entry.2 % n = i).map Prod.fst

theorem readLines_eq (contents : Bytes) : readLines contents = Bytes.lines contents := by
  have hcapacity : 0 < (LineReader.ofBytes FileReader.blockSize contents).capacity :=
    Nat.lt_of_lt_of_le Nat.zero_lt_one (Nat.le_max_left _ _)
  rw [readLines, LineReader.lines_eq _ hcapacity]
  rfl

/-- The next line goes to the shard whose turn it is, and to no other. -/
theorem dealt_concat (n i : Nat) (lines : List Bytes) (line : Bytes) :
    dealt n i (lines ++ [line])
      = dealt n i lines ++ if lines.length % n = i then [line] else [] := by
  rw [dealt, dealt, List.zipIdx_append, List.filter_append, List.map_append]
  by_cases hturn : lines.length % n = i
  · simp [hturn]
  · simp [hturn]

theorem flatMap_dealt_perm (hn : 0 < n) (lines : List Bytes) :
    ((List.range n).flatMap fun i => dealt n i lines).Perm lines := by
  have hperm := (flatMap_filter_perm (fun entry : Bytes × Nat => entry.2 % n) lines.zipIdx
    fun entry _ => Nat.mod_lt _ hn).map Prod.fst
  rwa [List.map_flatMap, List.zipIdx_map_fst] at hperm

theorem mem_of_mem_dealt {i : Nat} {l : Bytes} (h : l ∈ dealt n i lines) : l ∈ lines := by
  obtain ⟨entry, hentry, rfl⟩ := List.mem_map.mp h
  exact List.fst_mem_of_mem_zipIdx (List.mem_filter.mp hentry).1

/-! ### In turn -/

/-- So far these lines have been dealt out: every shard has been given those that fall to it, they are
counted, and it is the turn of shard `next`. -/
structure Dealing (places : List Location) (t₀ t : FileTree) (files : OutputFiles)
    (counts : List Nat) (next : Nat) (lines : List Bytes) : Prop where
  hold : Hold t (fun _ => false)
    (fun i => (dealt places.length i lines).flatMap Bytes.terminate) files
  counts : counts = (List.range places.length).map fun i => (dealt places.length i lines).length
  turn : next = lines.length % places.length
  placed : files.places = places
  rewritten : Rewritten places t₀ t

theorem Dealing.start (hold : Hold t (fun _ => false) (fun _ => []) files) :
    Dealing files.places t t files (.replicate files.length 0) 0 [] where
  hold := hold
  counts := by
    rw [OutputFiles.length_places]
    simp [dealt, List.map_const']
  turn := by rw [List.length_nil, Nat.zero_mod]
  placed := rfl
  rewritten := .refl _ _

/-- **One line.** It is the turn of the shard that the next line falls to, and the cursor moves on. -/
theorem Dealing.writeCounted (h : Dealing places t₀ t files counts next lines)
    (hpos : 0 < places.length) (line : Bytes) :
    ∃ counts' files' t', files.writeCounted next line counts t = (.ok counts', files', t')
      ∧ Dealing places t₀ t' files' counts' ((next + 1) % counts'.length) (lines ++ [line]) := by
  have hturn : next < places.length := h.turn ▸ Nat.mod_lt _ hpos
  have hfiles : files.length = places.length := by
    rw [← h.placed, OutputFiles.length_places]
  have hcounts : counts.length = places.length := by
    rw [h.counts, List.length_map, List.length_range]
  obtain ⟨files', t', hwrite⟩ := h.hold.writeLine_ordinary next line
  obtain ⟨hhold, hrew, hplaces⟩ := h.hold.writeLine hwrite
  refine ⟨counts.modify next (· + 1), files', t', ?_, ?_, ?_, ?_, hplaces.trans h.placed,
    h.rewritten.trans (h.placed ▸ hrew)⟩
  · rw [OutputFiles.writeCounted_of_lt (hfiles ▸ hturn) (hcounts ▸ hturn), hwrite]
  · convert hhold using 1
    funext i
    rw [dealt_concat, ← h.turn]
    by_cases hi : i = next
    · simp [hi]
    · simp [hi, Ne.symm hi]
  · rw [h.counts, OutputFiles.modify_map_range]
    apply List.map_congr_left
    intro i _
    rw [dealt_concat, ← h.turn]
    split <;> simp
  · -- The cursor was the number of the last line, up to a multiple of the number of shards.
    rw [List.length_modify, hcounts, List.length_append, List.length_singleton, h.turn,
      Nat.mod_add_mod]

/-- **All lines.** Dealing goes on to the last line. -/
theorem Dealing.deal (h : Dealing places t₀ t files counts next lines) (hpos : 0 < places.length)
    (rest : List Bytes) :
    ∃ counts' files' t' next', Shard.deal next counts files t rest = (.ok counts', files', t')
      ∧ Dealing places t₀ t' files' counts' next' (lines ++ rest) := by
  induction rest generalizing t files counts next lines with
  | nil => exact ⟨counts, files, t, next, rfl, by rwa [List.append_nil]⟩
  | cons line rest ih =>
      obtain ⟨counts₁, files₁, t₁, hwrite, h₁⟩ := h.writeCounted hpos line
      obtain ⟨counts', files', t', next', hdeal, h'⟩ := ih h₁
      refine ⟨counts', files', t', next', ?_, ?_⟩
      · rw [Shard.deal, hwrite]
        exact hdeal
      · rwa [List.append_assoc, List.singleton_append] at h'

/-! ### Whole runs -/

/-- What a success comes from. -/
theorem exists_of_run (hok : run input paths t = (.ok counts, t')) :
    ∃ source files t₁ contents files₂ t₂ files₃ t₃,
      t.openFile input = .ok source ∧ OutputFiles.create paths t = (.ok files, t₁)
        ∧ t₁.read source = .ok contents
        ∧ deal 0 (.replicate files.length 0) files t₁ (readLines contents) = (.ok counts, files₂, t₂)
        ∧ files₂.flush t₂ = (.ok (), files₃, t₃) ∧ t' = files₃.close t₃ := by
  rw [run] at hok
  cases hopen : t.openFile input with
  | error e => cases hopen ▸ hok
  | ok source =>
      rcases hcreate : OutputFiles.create paths t with ⟨e | files, t₁⟩
      all_goals simp only [hopen, hcreate] at hok
      · cases hok
      cases hread : t₁.read source with
      | error e => cases hread ▸ hok
      | ok contents =>
          simp only [hread] at hok
          rcases hdeal : deal 0 (.replicate files.length 0) files t₁ (readLines contents)
            with ⟨e | counts', files₂, t₂⟩
          all_goals simp only [hdeal] at hok
          · cases hok
          rcases hflush : files₂.flush t₂ with ⟨e | _, files₃, t₃⟩
          all_goals rw [hflush] at hok
          · cases hok
          obtain ⟨hcounts, hended⟩ := Prod.mk.inj hok
          obtain rfl := Except.ok.inj hcounts
          exact ⟨source, files, t₁, contents, files₂, t₂, files₃, t₃, rfl, rfl, hread, hdeal, hflush,
            hended.symm⟩

/-- When the files are in order, each shard comes to hold the lines it is dealt, and the lines are
counted. -/
theorem run_ordinary {source : Location} (hinput : t.Stores input source contents)
    (hseparate : ∀ path ∈ paths, t.Separate input path) (hpaths : paths.Pairwise t.Separate)
    (hne : paths ≠ []) (hcreatable : ∀ path ∈ paths, t.Ordinary path) :
    ∃ places t', run input paths t
        = (.ok ((List.range paths.length).map fun i =>
            (dealt paths.length i (Bytes.lines contents)).length), t')
      ∧ List.Forall₂ (fun path place => t.resolve path = .ok place) paths places
      ∧ Rewritten places t t'
      ∧ List.Forall₂ (fun path bs => ∃ place, t'.Stores path place bs) paths
          ((List.range paths.length).map fun i =>
            (dealt paths.length i (Bytes.lines contents)).flatMap Bytes.terminate) := by
  obtain ⟨files, t₁, hcreate, hplaces, hrew₁, hfiles⟩ :=
    OutputFiles.create_ordinary hne hpaths hcreatable
  have hsource : source ∉ files.places :=
    FileTree.notMem_of_separate hplaces hseparate hinput.resolve
  have hread₁ : t₁.read source = .ok contents :=
    (hrew₁.read_of_notMem hsource).trans hinput.read
  have hpos : 0 < files.places.length := by
    rw [← hplaces.length_eq]
    exact List.length_pos_iff.mpr hne
  obtain ⟨counts, files₂, t₂, next, hdeal, h₂⟩ := (Dealing.start hfiles).deal hpos (readLines contents)
  rw [List.nil_append, readLines_eq] at h₂
  obtain ⟨hhold₂, hcounts, -, hplaces₂, hrew₂⟩ := h₂
  obtain ⟨files₃, t₃, hflush⟩ := hhold₂.flush_ordinary
  obtain ⟨hflushed, hrew₃, hplaces₃⟩ := hhold₂.flush hflush
  have hrew : Rewritten files.places t t₃ := (hrew₁.trans hrew₂).trans (hplaces₂ ▸ hrew₃)
  rw [← hplaces.length_eq] at hcounts
  refine ⟨files.places, t₃, ?_, hplaces, hrew, ?_⟩
  · simp only [run, hinput.openFile, hcreate, hread₁, hdeal, hflush, hflushed.close, hcounts]
    rfl
  · have hplaces' : List.Forall₂ (fun path place => t₃.resolve path = .ok place) paths
        files.places := hplaces.imp fun _ _ h => (hrew.resolve _ _).mpr h
    have hslash : ∀ path ∈ paths, path.endsInSlash = false := by
      intro path hpath
      obtain ⟨_, hpath, -⟩ := hcreatable path hpath
      exact hpath.not_endsInSlash
    have hholds : ∀ (i : Nat) (place : Location), files.places[i]? = some place →
        t₃.Holds place false
          ((dealt paths.length i (Bytes.lines contents)).flatMap Bytes.terminate) := by
      intro i place hplace
      rw [← hplaces₂, ← hplaces₃] at hplace
      have hstored := hflushed.stored i place hplace
      rwa [← hplaces.length_eq] at hstored
    exact FileTree.forall₂_stores hplaces' hslash hholds

end MapReduce.Shard
