import MapReduce.Proofs.Split
import MapReduce.LineDecoder

/-!
# Lines from a stream

A decoder in front of a stream of whole lines hands them out one by one, each up to the limit, in
whatever pieces the stream arrives. It says that there is no line only while the next one is not
complete.
-/

namespace MapReduce.LineDecoder

variable {d d' : LineDecoder} {line : OutputLine} {rest : Bytes} {lines : List Bytes}

/-- Once `rest` has arrived too, these lines are what the decoder has to hand out. The rest of an
over-long line may stand before them. -/
structure Before (d : LineDecoder) (rest : Bytes) (lines : List Bytes) : Prop where
  newline_notMem : ∀ l ∈ lines, Bytes.newline ∉ l
  reading : d.discarding = false → d.buffer ++ rest = lines.flatMap Bytes.terminate
  discarding : d.discarding = true → ∃ junk, Bytes.newline ∉ junk
    ∧ d.buffer ++ rest = junk ++ Bytes.newline :: lines.flatMap Bytes.terminate

theorem cutLine_append_newline {a : Bytes} (ha : Bytes.newline ∉ a) (b : Bytes) :
    cutLine (a ++ Bytes.newline :: b) = some (a, b) := by
  rw [cutLine, Bytes.dropWhile_of_newline ha, Bytes.takeWhile_of_newline ha]

theorem cutLine_of_notMem {a : Bytes} (ha : Bytes.newline ∉ a) : cutLine a = none := by
  have hdrop : a.dropWhile (· != Bytes.newline) = [] := by
    rw [List.dropWhile_eq_nil_iff]
    intro b hb
    simpa using fun h : b = Bytes.newline => ha (h ▸ hb)
  rw [cutLine, hdrop]

theorem exists_cutLine (bs : Bytes) :
    (Bytes.newline ∉ bs ∧ cutLine bs = none)
      ∨ ∃ a b, bs = a ++ Bytes.newline :: b ∧ Bytes.newline ∉ a ∧ cutLine bs = some (a, b) := by
  by_cases hmem : Bytes.newline ∈ bs
  · obtain ⟨a, b, rfl, ha⟩ := List.eq_append_cons_of_mem hmem
    exact Or.inr ⟨a, b, rfl, ha, cutLine_append_newline ha b⟩
  · exact Or.inl ⟨hmem, cutLine_of_notMem hmem⟩

theorem flatMap_terminate_cons (l : Bytes) (lines : List Bytes) :
    (l :: lines).flatMap Bytes.terminate = l ++ Bytes.newline :: lines.flatMap Bytes.terminate := by
  simp [Bytes.terminate]

theorem exists_first_line {a b : Bytes} (ha : Bytes.newline ∉ a)
    (hlines : ∀ l ∈ lines, Bytes.newline ∉ l)
    (h : a ++ Bytes.newline :: b = lines.flatMap Bytes.terminate) :
    ∃ ls, lines = a :: ls ∧ b = ls.flatMap Bytes.terminate := by
  cases lines with
  | nil => simp at h
  | cons l ls =>
      rw [flatMap_terminate_cons] at h
      obtain ⟨rfl, rfl⟩ := cut_unique ha (hlines l (by simp)) h
      exact ⟨ls, rfl, rfl⟩

theorem exists_first_start {a : Bytes} (ha : Bytes.newline ∉ a) (hne : a ≠ [])
    (hlines : ∀ l ∈ lines, Bytes.newline ∉ l)
    (h : a ++ rest = lines.flatMap Bytes.terminate) :
    ∃ more ls, lines = (a ++ more) :: ls ∧ Bytes.newline ∉ more
      ∧ rest = more ++ Bytes.newline :: ls.flatMap Bytes.terminate := by
  cases lines with
  | nil => simp [hne] at h
  | cons l ls =>
      rw [flatMap_terminate_cons] at h
      rcases List.append_eq_append_iff.mp h with ⟨more, rfl, hrest⟩ | ⟨more, rfl, hrest⟩
      · exact ⟨more, ls, rfl, fun hmem => hlines _ List.mem_cons_self (by simp [hmem]), hrest⟩
      · cases more with
        | nil => exact ⟨[], ls, by simp, by simp, by simpa using hrest.symm⟩
        | cons b more =>
            obtain ⟨rfl, -⟩ := List.cons.inj hrest
            exact absurd (by simp) ha

namespace Before

theorem feed_iff {bs : Bytes} : (d.feed bs).Before rest lines ↔ d.Before (bs ++ rest) lines := by
  constructor
  · rintro ⟨hlines, hreading, hdiscarding⟩
    exact ⟨hlines, by simpa [feed] using hreading, by simpa [feed] using hdiscarding⟩
  · rintro ⟨hlines, hreading, hdiscarding⟩
    exact ⟨hlines, by simpa [feed] using hreading, by simpa [feed] using hdiscarding⟩

theorem concat (h : d.Before rest lines) {l : Bytes} (hl : Bytes.newline ∉ l) :
    d.Before (rest ++ l.terminate) (lines ++ [l]) where
  newline_notMem l' hl' := by
    rcases List.mem_append.mp hl' with hl' | hl'
    · exact h.newline_notMem l' hl'
    · rwa [List.mem_singleton.mp hl']
  reading hd := by
    rw [← List.append_assoc, h.reading hd]
    simp
  discarding hd := by
    obtain ⟨junk, hjunk, hstream⟩ := h.discarding hd
    refine ⟨junk, hjunk, ?_⟩
    rw [← List.append_assoc, hstream]
    simp

theorem skip (h : d.Before rest lines) :
    d.skip.Before rest lines ∧ (d.skip.discarding = true → d.skip.buffer = []) := by
  cases hd : d.discarding with
  | false =>
      have hskip : d.skip = d := by simp [LineDecoder.skip, hd]
      rw [hskip]
      exact ⟨h, by simp [hd]⟩
  | true =>
      obtain ⟨junk, hjunk, hstream⟩ := h.discarding hd
      rcases exists_cutLine d.buffer with ⟨hbuffer, hcut⟩ | ⟨a, b, hbuffer, ha, hcut⟩
      · have hskip : d.skip = { d with buffer := [] } := by simp [LineDecoder.skip, hd, hcut]
        have hrest : ∃ junk', Bytes.newline ∉ junk'
            ∧ rest = junk' ++ Bytes.newline :: lines.flatMap Bytes.terminate := by
          rcases List.append_eq_append_iff.mp hstream with ⟨more, rfl, hrest⟩ | ⟨more, hmore, hrest⟩
          · exact ⟨more, fun hmem => hjunk (by simp [hmem]), hrest⟩
          · cases more with
            | nil => exact ⟨[], by simp, by simpa using hrest.symm⟩
            | cons x more =>
                obtain ⟨rfl, -⟩ := List.cons.inj hrest
                exact absurd (by simp [hmore]) hbuffer
        rw [hskip]
        exact ⟨⟨h.newline_notMem, by simp [hd], fun _ => by simpa using hrest⟩, fun _ => rfl⟩
      · have hskip : d.skip = { d with discarding := false, buffer := b } := by
          simp [LineDecoder.skip, hd, hcut]
        rw [hbuffer, List.append_assoc, List.cons_append] at hstream
        obtain ⟨-, hlines⟩ := cut_unique ha hjunk hstream
        rw [hskip]
        exact ⟨⟨h.newline_notMem, fun _ => hlines, by simp⟩, by simp⟩

end Before

theorem limit_skip (d : LineDecoder) : d.skip.limit = d.limit := by
  unfold skip
  split
  · split <;> rfl
  · rfl

/-- As long as the rest of an over-long line is dropped, nothing is kept. -/
theorem buffer_skip_of_discarding (h : d.skip.discarding = true) : d.skip.buffer = [] := by
  unfold skip at h ⊢
  split
  · next hd =>
      rw [if_pos hd] at h
      split at h
      · simp at h
      · rfl
  · next hd => exact absurd (by rwa [if_neg hd] at h) hd

namespace Before

theorem truncate {l : Bytes} (h : d.Before rest (l :: lines)) (hreading : d.discarding = false)
    (hbuffer : d.limit ≤ d.buffer.length) (hlong : d.limit ≤ l.length) :
    d.truncate.1 = some ⟨l.take d.limit, true⟩ ∧ d.truncate.2.Before rest lines := by
  have hstream := h.reading hreading
  rw [flatMap_terminate_cons] at hstream
  have htake : d.buffer.take d.limit = l.take d.limit := by
    rw [← List.take_append_of_le_length hbuffer, hstream, List.take_append_of_le_length hlong]
  have hdrop : d.buffer.drop d.limit ++ rest
      = l.drop d.limit ++ Bytes.newline :: lines.flatMap Bytes.terminate := by
    rw [← List.drop_append_of_le_length hbuffer, hstream, List.drop_append_of_le_length hlong]
  refine ⟨by rw [LineDecoder.truncate, htake], fun l' hl' => h.newline_notMem l' (by simp [hl']),
    by simp [LineDecoder.truncate], fun _ => ⟨l.drop d.limit, ?_, hdrop⟩⟩
  exact fun hmem => h.newline_notMem l (by simp) (List.mem_of_mem_drop hmem)

/-- What is handed out is the first line ahead, cut at the limit. -/
theorem next_eq_some (h : d.Before rest lines) (hnext : d.next = (some line, d')) :
    ∃ l ls, lines = l :: ls ∧ line.bytes = l.take d.limit ∧ d'.limit = d.limit
      ∧ d'.Before rest ls := by
  obtain ⟨hskip, -⟩ := h.skip
  unfold next at hnext
  rw [← limit_skip d]
  generalize d.skip = e at hskip hnext
  simp only at hnext
  cases he : e.discarding with
  | true => simp [he] at hnext
  | false =>
      simp only [he, Bool.false_eq_true, if_false] at hnext
      have hstream := hskip.reading he
      rcases exists_cutLine e.buffer with ⟨hbuffer, hcut⟩ | ⟨a, b, hbuffer, ha, hcut⟩
      · simp only [hcut] at hnext
        split at hnext
        · next hlong =>
            have hne : e.buffer ≠ [] := List.ne_nil_of_length_pos (Nat.zero_lt_of_lt hlong)
            obtain ⟨more, ls, rfl, -, -⟩ :=
              exists_first_start hbuffer hne hskip.newline_notMem hstream
            obtain ⟨hline, hrest⟩ := hskip.truncate he (Nat.le_of_lt hlong)
              (by rw [List.length_append]; omega)
            rw [hnext] at hline hrest
            exact ⟨_, ls, rfl, congrArg OutputLine.bytes (Option.some.inj hline),
              by rw [← (Prod.mk.inj hnext).2], hrest⟩
        · simp at hnext
      · simp only [hcut] at hnext
        rw [hbuffer, List.append_assoc, List.cons_append] at hstream
        obtain ⟨ls, rfl, hrest⟩ := exists_first_line ha hskip.newline_notMem hstream
        split at hnext
        · next hshort =>
            obtain ⟨hline, rfl⟩ := Prod.mk.inj hnext
            refine ⟨a, ls, rfl, ?_, rfl, fun l hl => hskip.newline_notMem l (by simp [hl]),
              fun _ => hrest, fun hd => by simp at hd⟩
            rw [← Option.some.inj hline, List.take_of_length_le hshort]
        · next hlong =>
            obtain ⟨hline, hrest⟩ := hskip.truncate he
              (by rw [hbuffer, List.length_append]; omega) (by omega)
            rw [hnext] at hline hrest
            exact ⟨a, ls, rfl, congrArg OutputLine.bytes (Option.some.inj hline),
              by rw [← (Prod.mk.inj hnext).2], hrest⟩

/-- Nothing is handed out only while the next line is not complete. -/
theorem next_eq_none (h : d.Before rest lines) (hnext : d.next = (none, d')) :
    d'.limit = d.limit ∧ d'.Before rest lines ∧ (rest = [] → lines = []) := by
  obtain ⟨hskip, hempty⟩ := h.skip
  unfold next at hnext
  rw [← limit_skip d]
  generalize d.skip = e at hskip hempty hnext
  simp only at hnext
  cases he : e.discarding with
  | true =>
      simp only [he, if_true] at hnext
      obtain ⟨-, rfl⟩ := Prod.mk.inj hnext
      refine ⟨rfl, hskip, ?_⟩
      intro hrest
      obtain ⟨junk, -, hstream⟩ := hskip.discarding he
      simp [hempty he, hrest] at hstream
  | false =>
      simp only [he, Bool.false_eq_true, if_false] at hnext
      rcases exists_cutLine e.buffer with ⟨hbuffer, hcut⟩ | ⟨a, b, hbuffer, ha, hcut⟩
      · simp only [hcut] at hnext
        split at hnext
        · simp [LineDecoder.truncate] at hnext
        · obtain ⟨-, rfl⟩ := Prod.mk.inj hnext
          refine ⟨rfl, hskip, ?_⟩
          intro hrest
          by_contra hne
          obtain ⟨l, ls, rfl⟩ := List.exists_cons_of_ne_nil hne
          have hstream := hskip.reading he
          rw [hrest, List.append_nil, flatMap_terminate_cons] at hstream
          exact hbuffer (by simp [hstream])
      · simp only [hcut] at hnext
        split at hnext <;> simp [LineDecoder.truncate] at hnext

end Before

end MapReduce.LineDecoder
