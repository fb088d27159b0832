import MapReduce.Proofs.Grouping
import MapReduce.Proofs.Record
import MapReduce.Proofs.ReduceLog

/-!
# The open group

A reduce task goes through sorted lines with one group open, and reduces it as soon as a record of
another key or the end shows it to be complete. That comes to reading all records first, gathering
the runs of equal keys, and reducing those one after the other: no group is left out and none is
reduced twice. Only a bad line, or lines that end early, leave out the group that is open then.
-/

namespace MapReduce.ReduceTask

/-- The records of the lines before the first that is none, and what is wrong with that one. -/
def readRecords (done : List Record) : List Bytes → List Record × Option RecordError
  | [] => (done.reverse, none)
  | line :: rest =>
    match Record.split line with
    | .ok record => readRecords (record :: done) rest
    | .error e => (done.reverse, some e)

/-- The values of each key, for records that stand together when their keys are equal. -/
def groups (records : List Record) : List (Bytes × List Bytes) :=
  groupRuns (records.map fun r => (r.key, r.value))

theorem groups_eq_groupRuns (records : List Record) :
    groups records = groupRuns (records.map Record.entry) := rfl

section Acting

variable {σ : Type}

/-- Reduces groups in order, up to the first that fails. -/
def emitAllWith (reduce : ReduceAction σ) (aux : Bytes) (writer : BlockWriter) (s : σ) :
    List (Bytes × List Bytes) → (Except TaskError Unit × BlockWriter) × σ
  | [] => ((.ok (), writer), s)
  | group :: rest =>
    match reduce group.1 group.2 aux s with
    | (.error e, s) => ((.error (.workload e), writer), s)
    | (.ok result, s) =>
      match writer.write result with
      | (.error e, writer) => ((.error (.write e), writer), s)
      | (.ok _, writer) => emitAllWith reduce aux writer s rest

/-- Reduces the groups of the entries that have been read, after `keys` others. When the reading
has come to no good end, the last group is not known to be complete. -/
def emitEntriesWith (reduce : ReduceAction σ) (aux : Bytes) (output : Path) (keys : Nat)
    (writer : BlockWriter) (s : σ) (entries : List (Bytes × Bytes)) (ending : Option TaskError) :
    (Except TaskError Nat × BlockWriter) × σ :=
  match ending with
  | some ending =>
    match emitAllWith reduce aux writer s (groupRuns entries).dropLast with
    | ((.ok _, writer), s) => ((.error ending, writer), s)
    | ((.error cause, writer), s) => ((.error cause, writer), s)
  | none =>
    match emitAllWith reduce aux writer s (groupRuns entries) with
    | ((.error cause, writer), s) => ((.error cause, writer), s)
    | ((.ok _, writer), s) =>
      match writer.flush with
      | (.ok _, writer) => ((.ok (keys + (groupRuns entries).length), writer), s)
      | (.error e, writer) => ((.error (.file "write" output e), writer), s)

end Acting

theorem readRecords_eq_append (done : List Record) (lines : List Bytes) :
    readRecords done lines
      = (done.reverse ++ (readRecords [] lines).1, (readRecords [] lines).2) := by
  induction lines generalizing done with
  | nil => simp [readRecords]
  | cons line lines ih =>
      rw [readRecords, readRecords]
      cases Record.split line with
      | error e => simp
      | ok r =>
          dsimp only
          rw [ih (r :: done), ih [r]]
          simp

variable {σ : Type} {reduce : ReduceAction σ} {aux : Bytes} {input output : Path}
  {writer : BlockWriter} {s : σ} {keys : Nat} {key : Bytes} {values : List Bytes}
  {later : List (Bytes × Bytes)} {ending : Option TaskError} {failure : Option IoError}

theorem emitAllWith_cons (group : Bytes × List Bytes) (gs : List (Bytes × List Bytes)) :
    emitAllWith reduce aux writer s (group :: gs)
      = match emitWith reduce aux writer s group.1 group.2 with
        | ((.error cause, writer), s) => ((.error cause, writer), s)
        | ((.ok _, writer), s) => emitAllWith reduce aux writer s gs := by
  rw [emitAllWith, emitWith]
  rcases reduce group.1 group.2 aux s with ⟨_ | result, s⟩
  · rfl
  · dsimp only
    rcases writer.write result with ⟨_ | _, writer⟩ <;> rfl

/-- Values of one key in front of entries of another are a group of their own. -/
theorem groupRuns_append (hvalues : values ≠ [])
    (hkey : ∀ g ∈ (groupRuns later).head?, key ≠ g.1) :
    groupRuns (values.map (key, ·) ++ later) = (key, values) :: groupRuns later := by
  induction values with
  | nil => exact absurd rfl hvalues
  | cons v values ih =>
      by_cases hrest : values = []
      · rw [hrest]
        exact groupRuns_cons_of_ne hkey
      · exact groupRuns_cons_of_eq (ih hrest)

/-! ### The entries of the open group -/

namespace OpenGroup

/-- The entries that have been gathered in a group. -/
def entries (group : OpenGroup) : List (Bytes × Bytes) :=
  group.values.map (group.key, ·)

theorem values_ne_nil (group : OpenGroup) : group.values ≠ [] := by
  simp [values]

theorem entries_add (group : OpenGroup) (value : Bytes) :
    (group.add value).entries = group.entries ++ [(group.key, value)] := by
  simp [entries, values, add]

theorem groupRuns_entries (group : OpenGroup) :
    groupRuns group.entries = [(group.key, group.values)] := by
  have hnone : ∀ g ∈ (groupRuns ([] : List (Bytes × Bytes))).head?, group.key ≠ g.1 := by
    simp [groupRuns]
  simpa [groupRuns, entries] using groupRuns_append group.values_ne_nil hnone

theorem groupRuns_entries_append {group : OpenGroup} {r : Record} (hkey : group.key ≠ r.key)
    (later : List (Bytes × Bytes)) :
    groupRuns (group.entries ++ r.entry :: later)
      = (group.key, group.values) :: groupRuns (r.entry :: later) := by
  obtain ⟨vs, gs, hruns⟩ := exists_groupRuns_cons r.entry later
  refine groupRuns_append group.values_ne_nil ?_
  rw [hruns]
  rintro g ⟨⟩
  exact hkey

end OpenGroup

def Progress.entries (p : Progress) : List (Bytes × Bytes) :=
  match p.group with
  | none => []
  | some group => group.entries

/-! ### One step, and all of them -/

variable {p : Progress}

theorem finishWith_eq :
    finishWith reduce aux output p s
      = emitEntriesWith reduce aux output p.keys p.writer s p.entries none := by
  obtain ⟨group, keys, writer⟩ := p
  cases group with
  | none =>
      rw [finishWith, emitEntriesWith]
      rfl
  | some group =>
      rw [finishWith, emitEntriesWith, Progress.finishGroupWith]
      dsimp only [Progress.entries]
      rw [group.groupRuns_entries, emitAllWith_cons]
      dsimp only
      rcases emitWith reduce aux writer s group.key group.values with ⟨⟨_ | _, writer⟩, s⟩ <;> rfl

/-- At a bad end the open group is not complete. -/
theorem emitEntriesWith_entries (cause : TaskError) :
    emitEntriesWith reduce aux output p.keys p.writer s p.entries (some cause)
      = ((.error cause, p.writer), s) := by
  obtain ⟨group, keys, writer⟩ := p
  cases group with
  | none => rfl
  | some group =>
      rw [emitEntriesWith]
      dsimp only [Progress.entries]
      rw [group.groupRuns_entries]
      rfl

theorem emitEntriesWith_complete {group : OpenGroup} {r : Record} (hkey : group.key ≠ r.key) :
    emitEntriesWith reduce aux output keys writer s (group.entries ++ r.entry :: later) ending
      = match emitWith reduce aux writer s group.key group.values with
        | ((.error cause, writer), s) => ((.error cause, writer), s)
        | ((.ok _, writer), s) =>
          emitEntriesWith reduce aux output (keys + 1) writer s (r.entry :: later) ending := by
  have hruns := group.groupRuns_entries_append hkey later
  have hrest : groupRuns (r.entry :: later) ≠ [] := by
    obtain ⟨vs, gs, h⟩ := exists_groupRuns_cons r.entry later
    simp [h]
  cases ending with
  | some cause =>
      rw [emitEntriesWith, hruns, List.dropLast_cons_of_ne_nil hrest, emitAllWith_cons]
      rcases emitWith reduce aux writer s group.key group.values with ⟨⟨_ | _, writer⟩, s⟩ <;> rfl
  | none =>
      rw [emitEntriesWith, hruns, emitAllWith_cons]
      rcases emitWith reduce aux writer s group.key group.values with ⟨⟨_ | _, writer⟩, s⟩
      · rfl
      · have hcount : keys + ((group.key, group.values) :: groupRuns (r.entry :: later)).length
            = keys + 1 + (groupRuns (r.entry :: later)).length := by
          rw [List.length_cons]
          omega
        rw [hcount]
        rfl

/-- A record that is added makes no difference to what is to be reduced. -/
theorem emitEntriesWith_add (r : Record) :
    emitEntriesWith reduce aux output p.keys p.writer s (p.entries ++ r.entry :: later) ending
      = match p.addWith reduce aux r s with
        | ((.error cause, p), s) => ((.error cause, p.writer), s)
        | ((.ok _, p), s) =>
          emitEntriesWith reduce aux output p.keys p.writer s (p.entries ++ later) ending := by
  obtain ⟨group, keys, writer⟩ := p
  cases group with
  | none => rfl
  | some group =>
      rw [Progress.addWith]
      dsimp only [Progress.entries]
      by_cases hkey : group.key = r.key
      · rw [if_pos hkey]
        dsimp only
        rw [group.entries_add, List.append_assoc, hkey]
        rfl
      · rw [if_neg hkey, emitEntriesWith_complete hkey, Progress.finishGroupWith]
        dsimp only
        rcases emitWith reduce aux writer s group.key group.values with ⟨⟨_ | _, writer⟩, s⟩ <;> rfl

/-- How the reading of sorted lines ends if not well: at a line that is no record, or where the
lines end early. -/
def endingOf (input : Path) (bad : Option RecordError) (failure : Option IoError) :
    Option TaskError :=
  (bad.map (.badRecord input)).or (failure.map (.sortInput input))

theorem emitFromWith_eq (lines : List Bytes) :
    emitFromWith reduce aux input output failure p s lines
      = emitEntriesWith reduce aux output p.keys p.writer s
          (p.entries ++ (readRecords [] lines).1.map Record.entry)
          (endingOf input (readRecords [] lines).2 failure) := by
  -- The entries of the open group stand in front of those still to be read, whichever group is open.
  induction lines generalizing p s with
  | nil =>
      rw [readRecords, List.reverse_nil, List.map_nil, List.append_nil]
      cases failure with
      | some e => exact (emitEntriesWith_entries (.sortInput input e)).symm
      | none => exact finishWith_eq
  | cons line lines ih =>
      rw [emitFromWith, readRecords]
      cases Record.split line with
      | error e => simp [endingOf, emitEntriesWith_entries]
      | ok r =>
          dsimp only
          rw [readRecords_eq_append, List.reverse_singleton, List.singleton_append, List.map_cons,
            emitEntriesWith_add]
          rcases p.addWith reduce aux r s with ⟨⟨_ | _, p⟩, s⟩
          · rfl
          · exact ih

/-- **Line by line.** With one group open at a time, a reduce task reduces the runs of equal keys in
the records that it reads. -/
theorem emitSortedWith_eq (sorted : Sorted) :
    emitSortedWith reduce aux input output writer sorted s
      = emitEntriesWith reduce aux output 0 writer s
          ((readRecords [] sorted.lines).1.map Record.entry)
          (endingOf input (readRecords [] sorted.lines).2 sorted.failure) := by
  rw [emitSortedWith, emitFromWith_eq]
  rfl

end MapReduce.ReduceTask
