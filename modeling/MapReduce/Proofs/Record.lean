import MapReduce.Proofs.Split
import MapReduce.Record

/-!
# Records on lines

A record that can be written down is read back from its line. A line that is read through a text
reader may lose a carriage return at its end; that one belongs to the value, so the key survives.
-/

namespace MapReduce.Record

def entry (r : Record) : Bytes × Bytes :=
  (r.key, r.value)

def line (r : Record) : Bytes :=
  r.key ++ Bytes.space :: r.value

/-- A line can be read as this record. -/
structure Legible (r : Record) : Prop where
  key_ne_nil : r.key ≠ []
  space_notMem_key : Bytes.space ∉ r.key
  space_notMem_value : Bytes.space ∉ r.value
  newline_notMem_value : Bytes.newline ∉ r.value

structure Writable (r : Record) : Prop extends Legible r where
  newline_notMem_key : Bytes.newline ∉ r.key

instance (r : Record) : Decidable r.Legible :=
  decidable_of_iff (r.key ≠ [] ∧ Bytes.space ∉ r.key ∧ Bytes.space ∉ r.value
      ∧ Bytes.newline ∉ r.value)
    ⟨fun ⟨hne, hkey, hvalue, hline⟩ => ⟨hne, hkey, hvalue, hline⟩,
      fun ⟨hne, hkey, hvalue, hline⟩ => ⟨hne, hkey, hvalue, hline⟩⟩

instance (r : Record) : Decidable r.Writable :=
  decidable_of_iff (r.Legible ∧ Bytes.newline ∉ r.key)
    ⟨fun ⟨hlegible, hline⟩ => ⟨hlegible, hline⟩, fun ⟨hlegible, hline⟩ => ⟨hlegible, hline⟩⟩

variable {r : Record}

theorem any_isDelimiter_iff {bs : Bytes} :
    bs.any isDelimiter = false ↔ Bytes.space ∉ bs ∧ Bytes.newline ∉ bs := by
  simp only [isDelimiter, List.any_eq_false, Bool.or_eq_true, beq_iff_eq, not_or]
  constructor
  · intro h
    exact ⟨fun hs => (h _ hs).1 rfl, fun hn => (h _ hn).2 rfl⟩
  · rintro ⟨hspace, hnewline⟩ b hb
    exact ⟨fun hs => hspace (hs ▸ hb), fun hn => hnewline (hn ▸ hb)⟩

theorem Writable.newline_notMem_line (h : r.Writable) : Bytes.newline ∉ r.line := by
  rw [line, List.mem_append, List.mem_cons]
  rintro (hkey | hspace | hvalue)
  · exact h.newline_notMem_key hkey
  · exact absurd hspace (by decide)
  · exact h.newline_notMem_value hvalue

theorem encode_eq_ok_iff {bs : Bytes} :
    r.encode = .ok bs ↔ r.Writable ∧ bs = Bytes.terminate r.line := by
  unfold encode
  split
  · next hkey =>
      constructor
      · intro h
        simp at h
      · intro h
        simp [h.1.key_ne_nil, any_isDelimiter_iff.mpr
          ⟨h.1.space_notMem_key, h.1.newline_notMem_key⟩] at hkey
  · next hkey =>
      split
      · next hvalue =>
          constructor
          · intro h
            simp at h
          · intro h
            simp [any_isDelimiter_iff.mpr
              ⟨h.1.space_notMem_value, h.1.newline_notMem_value⟩] at hvalue
      · next hvalue =>
          simp only [Bool.or_eq_true, List.isEmpty_iff, not_or, Bool.not_eq_true] at hkey hvalue
          have hk := any_isDelimiter_iff.mp hkey.2
          have hv := any_isDelimiter_iff.mp hvalue
          have hline : r.key ++ Bytes.space :: r.value ++ [Bytes.newline] = Bytes.terminate r.line :=
            rfl
          rw [hline]
          constructor
          · intro h
            exact ⟨⟨⟨hkey.1, hk.1, hv.1, hv.2⟩, hk.2⟩, (Except.ok.inj h).symm⟩
          · intro h
            rw [h.2]

theorem split_line (h : r.Legible) : split r.line = .ok r := by
  have hkey : ∀ b ∈ r.key, (b == Bytes.space) = false := by
    intro b hb
    simpa using fun hs : b = Bytes.space => h.space_notMem_key (hs ▸ hb)
  have hvalue : ∀ b ∈ r.value, (b == Bytes.space) = false := by
    intro b hb
    simpa using fun hs : b = Bytes.space => h.space_notMem_value (hs ▸ hb)
  have hparts : splitWhere (· == Bytes.space) r.line = [r.key, r.value] := by
    rw [line, splitWhere_append_cons (by simp), splitWhere_of_forall hkey,
      splitWhere_of_forall hvalue]
    rfl
  simp [split, hparts, h.key_ne_nil, h.newline_notMem_value]

/-- A line is read as the only record that it is the line of. -/
theorem split_eq_ok_iff {l : Bytes} : split l = .ok r ↔ r.Legible ∧ l = r.line := by
  refine ⟨?_, fun h => h.2 ▸ split_line h.1⟩
  intro h
  have hparts : splitWhere (· == Bytes.space) l = [r.key, r.value]
      ∧ r.key ≠ [] ∧ Bytes.newline ∉ r.value := by
    unfold split at h
    split at h
    · next key value hparts =>
        split at h
        · simp at h
        · next hok =>
            obtain rfl := Except.ok.inj h
            simpa [hparts] using hok
    · simp at h
  obtain ⟨hparts, hkey, hvalue⟩ := hparts
  have hfree := forall_mem_splitWhere (· == Bytes.space) l
  rw [hparts] at hfree
  have hnotMem : ∀ part ∈ [r.key, r.value], Bytes.space ∉ part := by
    intro part hpart hs
    simpa using hfree part hpart _ hs
  refine ⟨⟨hkey, hnotMem _ (by simp), hnotMem _ (by simp), hvalue⟩, ?_⟩
  obtain ⟨x, ys, hx, rfl, hys⟩ := eq_append_of_splitWhere_eq_cons hparts
  rw [eq_of_splitWhere_eq_singleton hys, beq_iff_eq.mp hx, line]

/-- Lines that are all read as records are the lines of those. -/
theorem eq_map_line_of_map_split {lines : List Bytes} {records : List Record}
    (h : lines.map split = records.map .ok) :
    lines = records.map line ∧ ∀ r ∈ records, r.Legible := by
  induction lines generalizing records with
  | nil =>
      obtain rfl := List.map_eq_nil_iff.mp h.symm
      exact ⟨rfl, by simp⟩
  | cons l lines ih =>
      obtain ⟨r, records, rfl, hr, hrecords⟩ := List.map_eq_cons_iff.mp h.symm
      obtain ⟨hlegible, rfl⟩ := split_eq_ok_iff.mp hr.symm
      obtain ⟨rfl, hrest⟩ := ih hrecords.symm
      exact ⟨rfl, List.forall_mem_cons.mpr ⟨hlegible, hrest⟩⟩

theorem map_split_map_line {records : List Record} (h : ∀ r ∈ records, r.Legible) :
    (records.map line).map split = records.map .ok := by
  rw [List.map_map]
  exact List.map_congr_left fun r hr => split_line (h r hr)

def fileOf (records : List Record) : Bytes :=
  records.flatMap fun r => r.line.terminate

theorem fileOf_eq (records : List Record) :
    fileOf records = (records.map line).flatMap Bytes.terminate := by
  simp [fileOf, List.flatMap_map]

theorem newline_notMem_of_mem_map_line {records : List Record} (h : ∀ r ∈ records, r.Writable) :
    ∀ l ∈ records.map line, Bytes.newline ∉ l := by
  intro l hl
  obtain ⟨r, hr, rfl⟩ := List.mem_map.mp hl
  exact (h r hr).newline_notMem_line

theorem lines_fileOf {records : List Record} (h : ∀ r ∈ records, r.Writable) :
    Bytes.lines (fileOf records) = records.map line := by
  rw [fileOf_eq, Bytes.lines_flatMap_terminate (newline_notMem_of_mem_map_line h)]

/-! ### Line ends of a text reader -/

/-- The record as it is read when a carriage return at the end of its line is taken for a part of
the line end. -/
def withoutReturn (r : Record) : Record :=
  { r with value := Line.withoutReturn Bytes.carriageReturn ⟨r.value, true⟩ }

theorem line_withoutReturn (r : Record) :
    Line.withoutReturn Bytes.carriageReturn ⟨r.line, true⟩ = r.withoutReturn.line := by
  rcases List.eq_nil_or_concat r.value with hvalue | ⟨value, b, hvalue⟩
  · simp [Line.withoutReturn, withoutReturn, line, hvalue, Bytes.space, Bytes.carriageReturn]
  · rw [List.concat_eq_append] at hvalue
    have hline : r.line = (r.key ++ Bytes.space :: value) ++ [b] := by simp [line, hvalue]
    rw [hline, Line.withoutReturn_concat, line, withoutReturn, hvalue, Line.withoutReturn_concat]
    split <;> simp

theorem Legible.withoutReturn (h : r.Legible) : r.withoutReturn.Legible where
  key_ne_nil := h.key_ne_nil
  space_notMem_key := h.space_notMem_key
  space_notMem_value := fun hmem => h.space_notMem_value (Line.mem_of_mem_withoutReturn hmem)
  newline_notMem_value := fun hmem => h.newline_notMem_value (Line.mem_of_mem_withoutReturn hmem)

theorem withoutReturn_of_getLast? (h : r.value.getLast? ≠ some Bytes.carriageReturn) :
    r.withoutReturn = r := by
  have hvalue : Line.withoutReturn Bytes.carriageReturn ⟨r.value, true⟩ = r.value := by
    rw [Line.withoutReturn, if_neg (by simpa using h)]
  rw [withoutReturn, hvalue]

@[simp]
theorem key_withoutReturn (r : Record) : r.withoutReturn.key = r.key := rfl

end MapReduce.Record
