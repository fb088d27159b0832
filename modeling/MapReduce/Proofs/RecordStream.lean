import MapReduce.Proofs.LineReader
import MapReduce.Proofs.Record

/-!
# Records in a buffer

Records are added to a buffer one after the other, and one that cannot be written leaves no trace
there. A line reader then finds the lines of those that were written, and each line is read as its
record. Reading is wider than writing in one respect: a newline in the first field of a line gets
into the key of a record that cannot be written.
-/

namespace MapReduce.Record

variable {r : Record} {buffer line : Bytes} {records : List Record}

/-! ### Refusals -/

/-- Why a field cannot stand on a line. -/
def Delimited (bs : Bytes) : Prop :=
  Bytes.space ∈ bs ∨ Bytes.newline ∈ bs

instance (bs : Bytes) : Decidable (Delimited bs) :=
  inferInstanceAs (Decidable (Bytes.space ∈ bs ∨ Bytes.newline ∈ bs))

theorem any_isDelimiter (bs : Bytes) : bs.any isDelimiter = decide (Delimited bs) := by
  rw [Bool.eq_iff_iff, ← Bool.not_eq_false, any_isDelimiter_iff, decide_eq_true_iff, Delimited]
  exact Decidable.or_iff_not_not_and_not.symm

/-- A record is refused for its key before it is refused for its value. -/
theorem encode_eq (r : Record) :
    r.encode = if r.key = [] ∨ Delimited r.key then .error (.invalidKey r.key)
      else if Delimited r.value then .error (.invalidValue r.value)
      else .ok r.line.terminate := by
  simp only [encode, any_isDelimiter, Bool.or_eq_true, List.isEmpty_iff, decide_eq_true_eq]
  rfl

theorem append_of_writable (h : r.Writable) (buffer : Bytes) :
    append buffer r = (.ok (), buffer ++ r.line.terminate) := by
  rw [append, encode_eq_ok_iff.mpr ⟨h, rfl⟩]

theorem append_of_not_writable (h : ¬ r.Writable) (buffer : Bytes) :
    ∃ e, append buffer r = (.error e, buffer) := by
  rw [append]
  cases hencode : r.encode with
  | ok line => exact absurd (encode_eq_ok_iff.mp hencode).1 h
  | error e => exact ⟨e, rfl⟩

/-! ### One after the other -/

theorem appendAll_cons (buffer : Bytes) (r : Record) (records : List Record) :
    appendAll buffer (r :: records)
      = (append buffer r :: (appendAll (append buffer r).2 records).1,
        (appendAll (append buffer r).2 records).2) := rfl

/-- Each step finds the buffer as the steps before it left it. -/
theorem getElem?_appendAll (buffer : Bytes) (records : List Record) (i : Nat) :
    (appendAll buffer records).1[i]?
      = records[i]?.map (append (appendAll buffer (records.take i)).2) := by
  induction records generalizing buffer i with
  | nil => rfl
  | cons r records ih =>
      rw [appendAll_cons]
      cases i with
      | zero => rfl
      | succ i =>
          rw [List.getElem?_cons_succ, List.getElem?_cons_succ, List.take_succ_cons, appendAll_cons]
          exact ih _ i

theorem snd_appendAll (buffer : Bytes) (records : List Record) :
    (appendAll buffer records).2 = buffer ++ fileOf (records.filter fun r => r.Writable) := by
  induction records generalizing buffer with
  | nil => simp [appendAll, fileOf]
  | cons r records ih =>
      rw [appendAll_cons, ih]
      by_cases h : r.Writable
      · simp [append_of_writable h, h, fileOf]
      · obtain ⟨e, happend⟩ := append_of_not_writable h buffer
        simp [happend, h]

/-- The records whose steps went well. -/
def accepted (buffer : Bytes) (records : List Record) : List Record :=
  ((records.zip (appendAll buffer records).1).filter fun step => step.2.1.isOk).map Prod.fst

theorem accepted_eq (buffer : Bytes) (records : List Record) :
    accepted buffer records = records.filter fun r => r.Writable := by
  induction records generalizing buffer with
  | nil => rfl
  | cons r records ih =>
      have hrest := ih (append buffer r).2
      rw [accepted] at hrest ⊢
      rw [appendAll_cons]
      by_cases h : r.Writable
      · rw [append_of_writable h] at hrest ⊢
        simpa [h, Except.isOk, Except.toBool] using hrest
      · obtain ⟨e, happend⟩ := append_of_not_writable h buffer
        rw [happend] at hrest ⊢
        simpa [h, Except.isOk, Except.toBool] using hrest

theorem map_split_lines (h : ∀ r ∈ records, r.Writable) (capacity : Nat) :
    (LineReader.ofBytes capacity (fileOf records)).lines.map split = records.map .ok := by
  have hcapacity : 0 < (LineReader.ofBytes capacity (fileOf records)).capacity :=
    Nat.le_max_left 1 capacity
  have hpending : (LineReader.ofBytes capacity (fileOf records)).pending = fileOf records := rfl
  rw [LineReader.lines_eq _ hcapacity, hpending, lines_fileOf h]
  exact map_split_map_line fun r hr => (h r hr).toLegible

/-- **Round trip.** Each step adds the line of its record to the buffer, or refuses the record for
its key or else for its value and adds nothing. What is then read from the buffer line by line are
the records that were accepted, in order. -/
theorem appendAll_readBack (capacity : Nat) (records : List Record) :
    (∀ (i : Nat) (r : Record), records[i]? = some r →
        (appendAll [] records).1[i]? = some (
          if r.key = [] ∨ Bytes.space ∈ r.key ∨ Bytes.newline ∈ r.key then
            (.error (.invalidKey r.key), (appendAll [] (records.take i)).2)
          else if Bytes.space ∈ r.value ∨ Bytes.newline ∈ r.value then
            (.error (.invalidValue r.value), (appendAll [] (records.take i)).2)
          else
            (.ok (), (appendAll [] (records.take i)).2
              ++ (r.key ++ [Bytes.space] ++ r.value ++ [Bytes.newline]))))
      ∧ (LineReader.ofBytes capacity (appendAll [] records).2).lines.map split
          = (accepted [] records).map .ok := by
  constructor
  · intro i r hr
    rw [getElem?_appendAll, hr, Option.map_some, append, encode_eq]
    have hline : r.line.terminate = r.key ++ [Bytes.space] ++ r.value ++ [Bytes.newline] := by
      simp [line, Bytes.terminate]
    simp only [Delimited, hline]
    split_ifs <;> rfl
  · have hwritable : ∀ r ∈ records.filter fun r => r.Writable, r.Writable := by
      intro r hr
      exact of_decide_eq_true (List.mem_filter.mp hr).2
    rw [snd_appendAll, List.nil_append, accepted_eq]
    exact map_split_lines hwritable capacity

/-! ### What is read and what can be written -/

theorem terminate_injective : Function.Injective Bytes.terminate :=
  fun _ _ h => List.append_cancel_right h

theorem encode_eq_terminate_iff :
    r.encode = .ok line.terminate ↔ r.Writable ∧ line = r.line := by
  rw [encode_eq_ok_iff, terminate_injective.eq_iff]

theorem split_eq_malformed (h : ∀ r, split line ≠ .ok r) :
    split line = .error (.malformed line) := by
  unfold split at h ⊢
  split
  · next key value hparts =>
      split
      · rfl
      · next hok =>
          rw [hparts] at h
          exact absurd (if_neg hok) (h ⟨key, value⟩)
  · rfl

/-- A line is read as a record that is written on this line, or as one that no line is written for,
since its key holds a newline; every other line is malformed. So of lines without a newline exactly
those that are written are read. -/
theorem split_eq_ok_iff_encode (line : Bytes) :
    (∀ r, split line = .ok r ↔ r.encode = .ok line.terminate
        ∨ (r.Legible ∧ line = r.line ∧ Bytes.newline ∈ r.key
            ∧ r.encode = .error (.invalidKey r.key)))
      ∧ (Bytes.newline ∉ line → ∀ r, split line = .ok r ↔ r.encode = .ok line.terminate)
      ∧ ((∀ r, split line ≠ .ok r) → split line = .error (.malformed line)) := by
  have hgeneral : ∀ r, split line = .ok r ↔ r.encode = .ok line.terminate
      ∨ (r.Legible ∧ line = r.line ∧ Bytes.newline ∈ r.key
          ∧ r.encode = .error (.invalidKey r.key)) := by
    intro r
    rw [split_eq_ok_iff, encode_eq_terminate_iff]
    constructor
    · rintro ⟨hlegible, hline⟩
      by_cases hnewline : Bytes.newline ∈ r.key
      · exact .inr ⟨hlegible, hline, hnewline, by rw [encode_eq, if_pos (.inr (.inr hnewline))]⟩
      · exact .inl ⟨⟨hlegible, hnewline⟩, hline⟩
    · rintro (⟨hwritable, hline⟩ | ⟨hlegible, hline, -⟩)
      · exact ⟨hwritable.toLegible, hline⟩
      · exact ⟨hlegible, hline⟩
  refine ⟨hgeneral, ?_, split_eq_malformed⟩
  intro hfree r
  rw [hgeneral r, or_iff_left]
  rintro ⟨-, hline, hnewline, -⟩
  exact hfree (hline ▸ List.mem_append_left _ hnewline)

/-- Not every line that is read can be written. -/
theorem split_of_newline_in_key :
    split (Bytes.ofString "a\nb c") = .ok ⟨Bytes.ofString "a\nb", Bytes.ofString "c"⟩
      ∧ encode ⟨Bytes.ofString "a\nb", Bytes.ofString "c"⟩
          = .error (.invalidKey (Bytes.ofString "a\nb"))
      ∧ ¬ ∀ (line : Bytes) (r : Record), split line = .ok r ↔ r.encode = .ok line.terminate := by
  have hread : split (Bytes.ofString "a\nb c")
      = .ok ⟨Bytes.ofString "a\nb", Bytes.ofString "c"⟩ := by decide
  refine ⟨hread, by decide, ?_⟩
  intro h
  exact absurd ((h _ _).mp hread) (by decide)

end MapReduce.Record
