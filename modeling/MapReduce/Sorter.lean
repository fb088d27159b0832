import MapReduce.Bytes
import MapReduce.IoError

/-!
Sorting lines. A sorter takes in all of the lines before it gives them out in order. Those that do
not fit into memory are kept in scratch files, so it may fail while it takes them in, and again when
it has given some of them out.
-/
namespace MapReduce

/-- Lines as a sorter gives them out. -/
structure Sorted where
  lines : List Bytes
  /-- What makes them end early. -/
  failure : Option IoError
  deriving DecidableEq, Repr

/-- The lines come in ascending order and each as often as it was taken in, and they are all of them
if nothing fails. -/
def Sorted.IsOf (s : Sorted) (lines : List Bytes) : Prop :=
  ∃ missing, (s.lines ++ missing).Perm lines
    ∧ (s.lines ++ missing).Pairwise (fun a b => Bytes.le a b = true)
    ∧ (s.failure = none → missing = [])

/-- A sorter is given what comes of reading the lines. -/
structure Sorter where
  sort : Except IoError (List Bytes) → Except IoError Sorted
  sort_error : ∀ e, ∃ e', sort (.error e) = .error e'
  isOf : ∀ {lines s}, sort (.ok lines) = .ok s → s.IsOf lines

/-- There is memory for all of the lines. -/
def Sorter.inMemory : Sorter where
  sort read := read.map fun lines => ⟨lines.mergeSort Bytes.le, none⟩
  sort_error e := ⟨e, rfl⟩
  isOf := by
    rintro lines s ⟨⟩
    refine ⟨[], ?_, ?_, fun _ => rfl⟩
    · rw [List.append_nil]
      exact List.mergeSort_perm _ _
    · rw [List.append_nil]
      exact Bytes.pairwise_mergeSort _

end MapReduce
