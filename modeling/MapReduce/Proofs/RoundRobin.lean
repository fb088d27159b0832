import Mathlib.Algebra.Order.Floor.Div
import MapReduce.Proofs.Shard

/-!
# Dealing in turn

Lines that are dealt out in turn come to stand in rows: with `n` shards, shard `i` has the lines
`i`, `n + i`, `2n + i`, and so on. So the shards differ by one line at most, and the lines can be
put together again from them.
-/

namespace MapReduce.Shard

variable {n i : Nat} {lines : List Bytes}

/-- When it is the turn of a shard, all rows before have reached it, and no other has. -/
theorem length_eq_of_turn (hi : i < n) {size : Nat} (hturn : lines.length % n = i)
    (hsize : ∀ q, size ≤ q ↔ lines.length ≤ q * n + i) : lines.length = size * n + i := by
  have hrow : lines.length = lines.length / n * n + i := by rw [← hturn, Nat.div_add_mod']
  generalize lines.length / n = row at hrow
  have hsame : size = row := by
    apply eq_of_forall_ge_iff
    intro q
    rw [hsize q, hrow, Nat.add_le_add_iff_right, Nat.mul_le_mul_right_iff (Nat.zero_lt_of_lt hi)]
  rw [hsame, hrow]

theorem length_ne_of_not_turn (hi : i < n) (hturn : lines.length % n ≠ i) (q : Nat) :
    lines.length ≠ q * n + i := by
  intro h
  apply hturn
  rw [h, Nat.mul_add_mod', Nat.mod_eq_of_lt hi]

/-- A shard has a line for each row that reaches it. -/
theorem length_dealt_le_iff (hi : i < n) (lines : List Bytes) (q : Nat) :
    (dealt n i lines).length ≤ q ↔ lines.length ≤ q * n + i := by
  induction lines using List.reverseRecOn generalizing q with
  | nil => simp [dealt]
  | append_singleton lines line ih =>
      rw [dealt_concat, List.length_append, List.length_append, List.length_singleton]
      by_cases hturn : lines.length % n = i
      · have hlength := length_eq_of_turn hi hturn ih
        have hstrict := Nat.mul_lt_mul_right (a := n) (b := (dealt n i lines).length) (c := q)
          (Nat.zero_lt_of_lt hi)
        rw [if_pos hturn, List.length_singleton]
        omega
      · have hne := length_ne_of_not_turn hi hturn q
        rw [if_neg hturn, List.length_nil, Nat.add_zero, ih q]
        omega

/-- **Row by row.** Line `q` of a shard is the line of row `q` that falls to the shard. -/
theorem getElem?_dealt (hi : i < n) (lines : List Bytes) (q : Nat) :
    (dealt n i lines)[q]? = lines[q * n + i]? := by
  induction lines using List.reverseRecOn with
  | nil => simp [dealt]
  | append_singleton lines line ih =>
      have hsize := length_dealt_le_iff hi lines
      rw [dealt_concat, List.getElem?_append, List.getElem?_append]
      by_cases hold : (dealt n i lines).length ≤ q
      · have hbehind : lines.length ≤ q * n + i := (hsize q).mp hold
        rw [if_neg (Nat.not_lt.mpr hold), if_neg (Nat.not_lt.mpr hbehind)]
        by_cases hturn : lines.length % n = i
        · have hlength := length_eq_of_turn hi hturn hsize
          have hstrict := Nat.mul_lt_mul_right (a := n) (b := (dealt n i lines).length) (c := q)
            (Nat.zero_lt_of_lt hi)
          have hfirst : q - (dealt n i lines).length = 0 ↔ q * n + i - lines.length = 0 := by
            omega
          rw [if_pos hturn, List.getElem?_singleton, List.getElem?_singleton]
          exact if_congr hfirst rfl rfl
        · have hne := length_ne_of_not_turn hi hturn q
          have hnone : q * n + i - lines.length ≠ 0 := by omega
          rw [if_neg hturn, List.getElem?_nil, List.getElem?_singleton, if_neg hnone]
      · have hbefore : ¬ lines.length ≤ q * n + i := mt (hsize q).mpr hold
        rw [if_pos (Nat.lt_of_not_le hold), if_pos (Nat.lt_of_not_le hbefore)]
        exact ih

theorem length_dealt (hi : i < n) (lines : List Bytes) :
    (dealt n i lines).length = (lines.length - i) ⌈/⌉ n := by
  apply eq_of_forall_ge_iff
  intro q
  rw [length_dealt_le_iff hi, ceilDiv_le_iff_le_mul (Nat.zero_lt_of_lt hi), Nat.mul_comm]
  exact Nat.sub_le_iff_le_add.symm

theorem length_dealt_le_succ {j : Nat} (hi : i < n) (hj : j < n) (lines : List Bytes) :
    (dealt n i lines).length ≤ (dealt n j lines).length + 1 := by
  have hj' := (length_dealt_le_iff hj lines _).mp (Nat.le_refl (dealt n j lines).length)
  rw [length_dealt_le_iff hi, Nat.succ_mul]
  omega

/-- These shards are the lines, dealt out in turn. -/
structure DealtOut (lines : List Bytes) (shards : List (List Bytes)) : Prop where
  shard : ∀ i, i < shards.length → shards[i]? = some
    ((lines.zipIdx.filter fun entry => entry.2 % shards.length = i).map Prod.fst)
  sizes : shards.map List.length
    = (List.range shards.length).map fun i => (lines.length - i) ⌈/⌉ shards.length
  even : ∀ shard ∈ shards, ∀ shard' ∈ shards, shard.length ≤ shard'.length + 1
  rebuilt : ∀ k, (shards[k % shards.length]?.bind fun shard => shard[k / shards.length]?) = lines[k]?

theorem dealtOut_dealt (hn : 0 < n) (lines : List Bytes) :
    DealtOut lines ((List.range n).map fun i => dealt n i lines) := by
  have hlength : ((List.range n).map fun i => dealt n i lines).length = n := by simp
  have hmem : ∀ shard ∈ (List.range n).map fun i => dealt n i lines,
      ∃ i, i < n ∧ dealt n i lines = shard := by simp
  refine ⟨?_, ?_, ?_, ?_⟩
  · intro i hi
    rw [hlength] at hi ⊢
    simp [hi, dealt]
  · rw [hlength, List.map_map]
    apply List.map_congr_left
    intro i hi
    exact length_dealt (List.mem_range.mp hi) lines
  · intro shard hshard shard' hshard'
    obtain ⟨i, hi, rfl⟩ := hmem shard hshard
    obtain ⟨j, hj, rfl⟩ := hmem shard' hshard'
    exact length_dealt_le_succ hi hj lines
  · intro k
    have hturn : k % n < n := Nat.mod_lt k hn
    rw [hlength, List.getElem?_map, List.getElem?_range hturn, Option.map_some, Option.bind_some,
      getElem?_dealt hturn, Nat.div_add_mod']

/-- There is one way only to deal lines out to so many shards. -/
theorem DealtOut.eq_map_dealt {shards : List (List Bytes)} (h : DealtOut lines shards) :
    shards = (List.range shards.length).map fun i => dealt shards.length i lines := by
  apply List.ext_getElem?
  intro i
  by_cases hi : i < shards.length
  · rw [h.shard i hi]
    simp [hi, dealt]
  · simp [hi]

variable {t : FileTree} {input : Path} {paths : List Path}

theorem run_without_shards {source : Location} (hopen : t.openFile input = .ok source) :
    run input [] t
      = (.error (.worded .invalidInput "at least one destination file is required"), t) := by
  simp only [run, hopen, OutputFiles.create, List.isEmpty_nil, if_true]

theorem run_of_unopened {e : IoError} (hopen : t.openFile input = .error e) (paths : List Path) :
    run input paths t = (.error (e.annotate "open" input), t) := by
  simp only [run, hopen]

/-- When the files are in order, the shards come to hold the lines of the input, dealt out in turn,
and the number of lines in each is what is given. -/
theorem run_holdsLines (hinput : t.HasLines input lines)
    (hseparate : ∀ path ∈ paths, t.Separate input path) (hpaths : paths.Pairwise t.Separate)
    (hne : paths ≠ []) (hordinary : ∀ path ∈ paths, t.Ordinary path) :
    ∃ shards t', run input paths t = (.ok (shards.map List.length), t')
      ∧ List.Forall₂ t'.HoldsLines paths shards ∧ DealtOut lines shards := by
  obtain ⟨source, contents, hstores, rfl⟩ := hinput
  obtain ⟨places, t', hrun, -, -, hstored⟩ := run_ordinary hstores hseparate hpaths hne hordinary
  refine ⟨(List.range paths.length).map fun i => dealt paths.length i (Bytes.lines contents), t',
    ?_, ?_, dealtOut_dealt (List.length_pos_iff.mpr hne) _⟩
  · rw [hrun, List.map_map]
    rfl
  · apply List.forall₂_map_right_iff.mpr
    apply (List.forall₂_map_right_iff.mp hstored).imp
    intro path i hshard
    exact ⟨hshard, fun l hl => Bytes.not_mem_of_mem_lines contents l (mem_of_mem_dealt hl)⟩

/-- **Round robin.** The lines of a file are dealt out in turn, and none is lost. The input is opened
before anything is created, and without shards there is nobody to deal to. -/
theorem run_dealt_out (input : Path) (paths : List Path) (t : FileTree) :
    (∀ lines, t.HasLines input lines → paths ≠ [] → paths.Pairwise t.Separate →
        (∀ path ∈ paths, t.Separate input path) → (∀ path ∈ paths, t.Ordinary path) →
          ∃ shards t', run input paths t = (.ok (shards.map List.length), t')
            ∧ List.Forall₂ t'.HoldsLines paths shards ∧ DealtOut lines shards)
      ∧ (∀ source, t.openFile input = .ok source → paths = [] →
          ∃ e, run input paths t = (.error e, t) ∧ e.kind = .invalidInput)
      ∧ ∀ e, t.openFile input = .error e →
          run input paths t = (.error (e.annotate "open" input), t) := by
  refine ⟨?_, ?_, ?_⟩
  · intro lines hinput hne hpaths hseparate hordinary
    exact run_holdsLines hinput hseparate hpaths hne hordinary
  · rintro source hopen rfl
    exact ⟨_, run_without_shards hopen, rfl⟩
  · intro e hopen
    exact run_of_unopened hopen paths

/-- Five lines, the last without a newline. -/
def fiveLines : FileTree :=
  ⟨[], [([], .directory), ([Bytes.ofString "in"], .file (Bytes.ofString "a\nb\n\nc\nd")),
    ([Bytes.ofString "s1"], .file (Bytes.ofString "old"))]⟩

theorem run_dealt_out_fiveLines :
    (∃ t', run (Bytes.ofString "in") [Bytes.ofString "s0", Bytes.ofString "s1"] fiveLines
          = (.ok [3, 2], t')
        ∧ t'.HoldsLines (Bytes.ofString "s0") [Bytes.ofString "a", [], Bytes.ofString "d"]
        ∧ t'.HoldsLines (Bytes.ofString "s1") [Bytes.ofString "b", Bytes.ofString "c"])
      ∧ (∃ e, run (Bytes.ofString "in") [] fiveLines = (.error e, fiveLines)
        ∧ e.kind = .invalidInput)
      ∧ run (Bytes.ofString "none") [Bytes.ofString "s1"] fiveLines
        = (.error (IoError.noEntry.annotate "open" (Bytes.ofString "none")), fiveLines) := by
  refine ⟨?_, ?_, ?_⟩
  · have hinput : fiveLines.HasLines (Bytes.ofString "in")
        (["a", "b", "", "c", "d"].map Bytes.ofString) :=
      ⟨[Bytes.ofString "in"], Bytes.ofString "a\nb\n\nc\nd",
        ⟨by decide +kernel, by decide +kernel⟩, by decide +kernel⟩
    obtain ⟨shards, t', hrun, hholds, hdealt⟩ := (run_dealt_out (Bytes.ofString "in")
      [Bytes.ofString "s0", Bytes.ofString "s1"] fiveLines).1 _ hinput (by simp)
      (by decide +kernel) (by decide +kernel) (by decide +kernel)
    have hshards := hdealt.eq_map_dealt
    rw [← hholds.length_eq] at hshards
    obtain rfl : shards = [[Bytes.ofString "a", [], Bytes.ofString "d"],
        [Bytes.ofString "b", Bytes.ofString "c"]] := hshards.trans (by decide +kernel)
    obtain ⟨hfirst, hrest⟩ := List.forall₂_cons.mp hholds
    obtain ⟨hsecond, -⟩ := List.forall₂_cons.mp hrest
    exact ⟨t', hrun, hfirst, hsecond⟩
  · exact (run_dealt_out (Bytes.ofString "in") [] fiveLines).2.1 [Bytes.ofString "in"]
      (by decide +kernel) rfl
  · exact (run_dealt_out (Bytes.ofString "none") [Bytes.ofString "s1"] fiveLines).2.2 .noEntry
      (by decide +kernel)

end MapReduce.Shard
