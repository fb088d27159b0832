import MapReduce.FileReader
import MapReduce.Proofs.Split

/-!
# Reading lines

Every way of reading a file line by line finds the lines of `Bytes.lines`: through a buffer that is
refilled in blocks, and from a file that is read again for each block.
-/

namespace MapReduce

namespace LineReader

def pending (r : LineReader) : Bytes :=
  r.buffered ++ r.source

@[simp]
theorem pending_fill (r : LineReader) : r.fill.pending = r.pending := by
  unfold fill pending
  split
  · next h => simp [List.isEmpty_iff.mp h]
  · rfl

@[simp]
theorem capacity_fill (r : LineReader) : r.fill.capacity = r.capacity := by
  unfold fill
  split <;> rfl

theorem source_fill_suffix (r : LineReader) : r.fill.source <:+ r.source := by
  unfold fill
  split
  · exact List.drop_suffix _ _
  · exact List.suffix_rfl

theorem pending_eq_nil_of_fill {r : LineReader} (hcapacity : 0 < r.capacity)
    (hempty : r.fill.buffered = []) : r.pending = [] := by
  unfold fill at hempty
  split at hempty
  · next h =>
      have hsource : r.source = [] := by
        rcases List.take_eq_nil_iff.mp hempty with h | h
        · omega
        · exact h
      simp [pending, List.isEmpty_iff.mp h, hsource]
  · next h => simp [hempty] at h

/-! One turn of the reader, by what the filled buffer holds. -/

theorem readThrough_of_empty {r : LineReader} (before : Bytes) (hempty : r.fill.buffered = []) :
    r.readThrough before = (before, r.fill) := by
  rw [readThrough]
  split
  · rfl
  · next hbuffered => simp [hempty] at hbuffered

theorem readThrough_of_buffered {r : LineReader} {a c : Bytes} (before : Bytes)
    (ha : Bytes.newline ∉ a) (hbuffered : r.fill.buffered = a ++ Bytes.newline :: c) :
    r.readThrough before
      = (before ++ a ++ [Bytes.newline], { r.fill with buffered := c }) := by
  rw [readThrough]
  split
  · next h => simp [hbuffered] at h
  · next x xs h =>
      rw [← h, hbuffered]
      simp only [Bytes.takeWhile_of_newline ha, Bytes.dropWhile_of_newline ha]

theorem readThrough_of_not_buffered {r : LineReader} (before : Bytes)
    (hempty : r.fill.buffered ≠ []) (hbuffered : Bytes.newline ∉ r.fill.buffered) :
    r.readThrough before
      = readThrough { r.fill with buffered := [] } (before ++ r.fill.buffered) := by
  rw [readThrough]
  split
  · next h => exact absurd h hempty
  · next x xs h =>
      rw [← h]
      simp only [Bytes.takeWhile_of_not_mem hbuffered, Bytes.dropWhile_of_not_mem hbuffered]

/-- The reader hands out what is pending up to its first newline, and leaves what is behind it. -/
theorem readThrough_of_newline {r : LineReader} {a b : Bytes} (before : Bytes)
    (hcapacity : 0 < r.capacity) (ha : Bytes.newline ∉ a)
    (hpending : r.pending = a ++ Bytes.newline :: b) :
    ∃ r', r.readThrough before = (before ++ a ++ [Bytes.newline], r')
      ∧ r'.capacity = r.capacity ∧ r'.pending = b ∧ r'.source <:+ r.source := by
  induction hn : r.remaining using Nat.strongRecOn generalizing r a before with
  | _ n ih =>
      have hfill : r.fill.buffered ++ r.fill.source = a ++ Bytes.newline :: b := by
        rw [← hpending, ← pending_fill, pending]
      by_cases hmem : Bytes.newline ∈ r.fill.buffered
      · obtain ⟨a', c, hbuffered, ha'⟩ := List.eq_append_cons_of_mem hmem
        rw [hbuffered, List.append_assoc, List.cons_append] at hfill
        obtain ⟨rfl, hrest⟩ := cut_unique ha' ha hfill
        exact ⟨_, readThrough_of_buffered before ha hbuffered, by simp, hrest, source_fill_suffix r⟩
      · have hempty : r.fill.buffered ≠ [] := by
          intro h
          have := pending_eq_nil_of_fill hcapacity h
          simp [this] at hpending
        rw [readThrough_of_not_buffered before hempty hmem]
        obtain ⟨a', rfl, hsource⟩ : ∃ a', a = r.fill.buffered ++ a'
            ∧ r.fill.source = a' ++ Bytes.newline :: b := by
          rcases List.append_eq_append_iff.mp hfill with ⟨a', h⟩ | ⟨c, hbuffered, hsource⟩
          · exact ⟨a', h⟩
          · cases c with
            | nil => exact ⟨[], by simpa using hbuffered.symm, by simpa using hsource.symm⟩
            | cons x c =>
                obtain ⟨rfl, -⟩ := List.cons.inj hsource
                exact absurd (by simp [hbuffered]) hmem
        have hless : LineReader.remaining { r.fill with buffered := [] } < n := by
          have := remaining_fill r
          have := List.length_pos_iff.mpr hempty
          simp only [remaining, List.length_nil] at *
          omega
        obtain ⟨r', hread, hcap, hrest, hsuffix⟩ := ih _ hless (before ++ r.fill.buffered)
          (by simpa using hcapacity) (fun h => ha (List.mem_append_right _ h))
          (by simpa [pending] using hsource) rfl
        exact ⟨r', by simpa using hread, by simpa using hcap, hrest,
          hsuffix.trans (source_fill_suffix r)⟩

theorem readThrough_of_not_mem {r : LineReader} (before : Bytes) (hcapacity : 0 < r.capacity)
    (hpending : Bytes.newline ∉ r.pending) :
    ∃ r', r.readThrough before = (before ++ r.pending, r')
      ∧ r'.capacity = r.capacity ∧ r'.pending = [] ∧ r'.source <:+ r.source := by
  induction hn : r.remaining using Nat.strongRecOn generalizing r before with
  | _ n ih =>
      have hfill : r.fill.buffered ++ r.fill.source = r.pending := by
        rw [← pending_fill, pending]
      by_cases hempty : r.fill.buffered = []
      · have hnil := pending_eq_nil_of_fill hcapacity hempty
        refine ⟨r.fill, ?_, by simp, by simpa using hnil, source_fill_suffix r⟩
        rw [readThrough_of_empty before hempty, hnil, List.append_nil]
      · have hmem : Bytes.newline ∉ r.fill.buffered := by
          intro h
          exact hpending (by rw [← hfill]; exact List.mem_append_left _ h)
        rw [readThrough_of_not_buffered before hempty hmem]
        have hless : LineReader.remaining { r.fill with buffered := [] } < n := by
          have := remaining_fill r
          have := List.length_pos_iff.mpr hempty
          simp only [remaining, List.length_nil] at *
          omega
        have hrest : Bytes.newline ∉ LineReader.pending { r.fill with buffered := [] } := by
          intro h
          exact hpending (by rw [← hfill]; exact List.mem_append_right _ (by simpa [pending] using h))
        obtain ⟨r', hread, hcap, hnil, hsuffix⟩ := ih _ hless (before ++ r.fill.buffered)
          (by simpa using hcapacity) hrest rfl
        refine ⟨r', ?_, by simpa using hcap, hnil, hsuffix.trans (source_fill_suffix r)⟩
        rw [hread, ← hfill]
        simp [pending]

theorem next_of_newline {r : LineReader} {a b : Bytes} (hcapacity : 0 < r.capacity)
    (ha : Bytes.newline ∉ a) (hpending : r.pending = a ++ Bytes.newline :: b) :
    ∃ r', r.next = some (a, r')
      ∧ r'.capacity = r.capacity ∧ r'.pending = b ∧ r'.source <:+ r.source := by
  obtain ⟨r', hread, hrest⟩ := readThrough_of_newline [] hcapacity ha hpending
  refine ⟨r', ?_, hrest⟩
  rw [next, hread, List.nil_append]
  split
  · next h => simp at h
  · next line r'' _ h =>
      obtain ⟨rfl, rfl⟩ := Prod.mk.inj h
      simp

theorem next_of_not_mem {r : LineReader} (hcapacity : 0 < r.capacity)
    (hpending : Bytes.newline ∉ r.pending) (hne : r.pending ≠ []) :
    ∃ r', r.next = some (r.pending, r')
      ∧ r'.capacity = r.capacity ∧ r'.pending = [] ∧ r'.source <:+ r.source := by
  obtain ⟨r', hread, hrest⟩ := readThrough_of_not_mem [] hcapacity hpending
  refine ⟨r', ?_, hrest⟩
  have hlast : r.pending.getLast? ≠ some Bytes.newline := by
    intro h
    exact hpending (List.mem_of_getLast? h)
  rw [next, hread]
  cases hcases : r.pending with
  | nil => exact absurd hcases hne
  | cons x xs => simp_all

theorem next_of_nil {r : LineReader} (hcapacity : 0 < r.capacity) (hpending : r.pending = []) :
    r.next = none := by
  obtain ⟨r', hread, -⟩ := readThrough_of_not_mem [] hcapacity (by simp [hpending])
  rw [next, hread, hpending]
  rfl

/-- The reader hands out the first line of what is pending, and leaves the others and less to read. -/
theorem next_of_lines_cons {r : LineReader} {l : Bytes} {ls : List Bytes}
    (hcapacity : 0 < r.capacity) (hlines : Bytes.lines r.pending = l :: ls) :
    ∃ r', r.next = some (l, r') ∧ r'.capacity = r.capacity ∧ Bytes.lines r'.pending = ls
      ∧ r'.pending.length < r.pending.length := by
  rcases Bytes.eq_of_lines_eq_cons hlines with ⟨b, hpending, hl, rfl⟩ | ⟨hpending, hl, hne, rfl⟩
  · obtain ⟨r', hnext, hcap, rfl, -⟩ := next_of_newline hcapacity hl hpending
    refine ⟨r', hnext, hcap, rfl, ?_⟩
    rw [hpending, List.length_append, List.length_cons]
    omega
  · subst hpending
    obtain ⟨r', hnext, hcap, hrest, -⟩ := next_of_not_mem hcapacity hl hne
    refine ⟨r', hnext, hcap, by rw [hrest, Bytes.lines_nil], ?_⟩
    rw [hrest]
    exact List.length_pos_iff.mpr hne

theorem linesUpTo_eq (r : LineReader) (hcapacity : 0 < r.capacity) (done : List Bytes) (n : Nat)
    (hn : r.pending.length ≤ n) : r.linesUpTo done n = done.reverse ++ Bytes.lines r.pending := by
  induction n generalizing r done with
  | zero =>
      have : r.pending = [] := by simpa using hn
      simp [linesUpTo, this]
  | succ n ih =>
      rw [linesUpTo]
      cases hlines : Bytes.lines r.pending with
      | nil => simp [next_of_nil hcapacity (Bytes.lines_eq_nil_iff.mp hlines)]
      | cons l ls =>
          obtain ⟨r', hnext, hcap, hrest, hless⟩ := next_of_lines_cons hcapacity hlines
          simp only [hnext]
          rw [ih r' (hcap ▸ hcapacity) _ (by omega), hrest]
          simp

/-- The lines that a reader hands out do not depend on its blocks. -/
theorem lines_eq (r : LineReader) (hcapacity : 0 < r.capacity) : r.lines = Bytes.lines r.pending := by
  rw [lines, linesUpTo_eq r hcapacity [] _ (by simp [pending, remaining])]
  rfl

end LineReader

namespace FileReader

def pending (r : FileReader) (contents : Bytes) : Bytes :=
  r.buffered ++ contents.drop r.position

def block (r : FileReader) (contents : Bytes) : LineReader :=
  ⟨blockSize, r.buffered, contents.drop r.position⟩

theorem capacity_block_pos (r : FileReader) (contents : Bytes) : 0 < (r.block contents).capacity :=
  Nat.zero_lt_succ _

variable {r : FileReader} {t : FileTree} {contents : Bytes}

theorem drop_length_sub {rest : Bytes} (position : Nat)
    (hrest : rest <:+ contents.drop position) :
    contents.drop (contents.length - rest.length) = rest :=
  (List.suffix_iff_eq_drop.mp (hrest.trans (List.drop_suffix _ _))).symm

theorem next_of_buffered {a c : Bytes} (t : FileTree) (ha : Bytes.newline ∉ a)
    (hbuffered : r.buffered = a ++ Bytes.newline :: c) :
    r.next t = .ok (some (a, { r with buffered := c })) := by
  simp only [next, hbuffered, Bytes.dropWhile_of_newline ha, Bytes.takeWhile_of_newline ha]

theorem next_of_not_buffered (hread : t.read r.place = .ok contents)
    (hbuffered : Bytes.newline ∉ r.buffered) :
    r.next t = .ok ((r.block contents).next.map fun (line, rest) =>
      (line, { r with position := contents.length - rest.source.length, buffered := rest.buffered })) := by
  simp only [next, readNext, Bytes.dropWhile_of_not_mem hbuffered, hread]
  rfl

theorem next_of_newline (hread : t.read r.place = .ok contents) {a b : Bytes}
    (ha : Bytes.newline ∉ a) (hpending : r.pending contents = a ++ Bytes.newline :: b) :
    ∃ r', r.next t = .ok (some (a, r')) ∧ r'.place = r.place ∧ r'.pending contents = b := by
  by_cases hmem : Bytes.newline ∈ r.buffered
  · obtain ⟨a', c, hbuffered, ha'⟩ := List.eq_append_cons_of_mem hmem
    rw [pending, hbuffered, List.append_assoc, List.cons_append] at hpending
    obtain ⟨rfl, hrest⟩ := cut_unique ha' ha hpending
    exact ⟨_, next_of_buffered t ha hbuffered, rfl, hrest⟩
  · obtain ⟨r', hnext, -, hrest, hsuffix⟩ :=
      LineReader.next_of_newline (r.capacity_block_pos contents) ha hpending
    rw [next_of_not_buffered hread hmem, hnext]
    refine ⟨_, rfl, rfl, ?_⟩
    rw [pending, drop_length_sub r.position hsuffix]
    exact hrest

theorem next_of_not_mem (hread : t.read r.place = .ok contents)
    (hpending : Bytes.newline ∉ r.pending contents) (hne : r.pending contents ≠ []) :
    ∃ r', r.next t = .ok (some (r.pending contents, r')) ∧ r'.place = r.place
      ∧ r'.pending contents = [] := by
  have hmem : Bytes.newline ∉ r.buffered := fun h => hpending (List.mem_append_left _ h)
  obtain ⟨r', hnext, -, hrest, hsuffix⟩ :=
    LineReader.next_of_not_mem (r.capacity_block_pos contents) hpending hne
  rw [next_of_not_buffered hread hmem, hnext]
  refine ⟨_, rfl, rfl, ?_⟩
  rw [pending, drop_length_sub r.position hsuffix]
  exact hrest

theorem next_of_nil (hread : t.read r.place = .ok contents) (hpending : r.pending contents = []) :
    r.next t = .ok none := by
  have hmem : Bytes.newline ∉ r.buffered := by
    simp [(List.append_eq_nil_iff.mp hpending).1]
  rw [next_of_not_buffered hread hmem,
    LineReader.next_of_nil (r.capacity_block_pos contents) hpending]
  rfl

theorem next_of_lines_nil (hread : t.read r.place = .ok contents)
    (hlines : Bytes.lines (r.pending contents) = []) : r.next t = .ok none :=
  next_of_nil hread (Bytes.lines_eq_nil_iff.mp hlines)

/-- While the file stays as it is, the reader hands out its lines in order. -/
theorem next_of_lines_cons (hread : t.read r.place = .ok contents) {l : Bytes} {ls : List Bytes}
    (hlines : Bytes.lines (r.pending contents) = l :: ls) :
    ∃ r', r.next t = .ok (some (l, r')) ∧ r'.place = r.place
      ∧ Bytes.lines (r'.pending contents) = ls := by
  rcases Bytes.eq_of_lines_eq_cons hlines with ⟨b, hpending, hl, rfl⟩ | ⟨hpending, hl, hne, rfl⟩
  · obtain ⟨r', hnext, hplace, rfl⟩ := next_of_newline hread hl hpending
    exact ⟨r', hnext, hplace, rfl⟩
  · subst hpending
    obtain ⟨r', hnext, hplace, hrest⟩ := next_of_not_mem hread hl hne
    exact ⟨r', hnext, hplace, by rw [hrest, Bytes.lines_nil]⟩

end FileReader

end MapReduce
