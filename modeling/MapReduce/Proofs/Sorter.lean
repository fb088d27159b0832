import MapReduce.Proofs.Grouping
import MapReduce.Sorter

/-!
# What comes out of a sorter

There is one way only to bring lines into ascending order, so all sorters that do not fail give out
the same.
-/

namespace MapReduce

variable {s : Sorted} {lines : List Bytes}

namespace Sorted

theorem IsOf.lines_eq (h : s.IsOf lines) (hend : s.failure = none) :
    s.lines = lines.mergeSort Bytes.le := by
  obtain ⟨missing, hperm, hascend, hall⟩ := h
  obtain rfl := hall hend
  rw [List.append_nil] at hperm hascend
  exact Bytes.eq_mergeSort_of_perm hperm hascend

end Sorted

namespace Sorter

variable {sorter : Sorter} {read : Except IoError (List Bytes)}

/-- Only lines that have been read are given out. -/
theorem exists_isOf (h : sorter.sort read = .ok s) : ∃ lines, read = .ok lines ∧ s.IsOf lines := by
  cases read with
  | error e =>
      obtain ⟨e', he⟩ := sorter.sort_error e
      exact absurd (he.symm.trans h) (by simp)
  | ok lines => exact ⟨lines, rfl, sorter.isOf h⟩

theorem inMemory_ok (lines : List Bytes) :
    inMemory.sort (.ok lines) = .ok ⟨lines.mergeSort Bytes.le, none⟩ := rfl

theorem inMemory_error (e : IoError) : inMemory.sort (.error e) = .error e := rfl

/-- A sorter that does not fail gives out what the one in memory does. -/
theorem sort_eq_inMemory (h : sorter.sort read = .ok s) (hend : s.failure = none) :
    sorter.sort read = inMemory.sort read := by
  obtain ⟨lines, rfl, hof⟩ := exists_isOf h
  rw [h, inMemory_ok, ← hof.lines_eq hend, ← hend]

end Sorter

end MapReduce
