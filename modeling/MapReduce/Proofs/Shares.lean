import Mathlib.Data.List.Nodup
import MapReduce.Proofs.Grouping

/-!
# Shares

Elements that are dealt out by number come to the shares of the numbers below a bound, and put
together again the shares are a rearrangement of what was dealt out.
-/

namespace MapReduce

open scoped List

variable {α : Type} {n : Nat}

theorem flatMap_range_eq {j : Nat} (hj : j < n) (f : Nat → List α)
    (hf : ∀ i, i ≠ j → f i = []) : (List.range n).flatMap f = f j := by
  have hnil : ∀ is : List Nat, j ∉ is → is.flatMap f = [] := by
    intro is his
    exact List.flatMap_eq_nil_iff.mpr fun i hi => hf i fun h => his (h ▸ hi)
  obtain ⟨before, after, hrange⟩ := List.append_of_mem (List.mem_range.mpr hj)
  have hnodup : (List.range n).Nodup := List.nodup_range
  rw [hrange, List.nodup_middle, List.nodup_cons, List.mem_append, not_or] at hnodup
  rw [hrange, List.flatMap_append, List.flatMap_cons, hnil before hnodup.1.1,
    hnil after hnodup.1.2, List.nil_append, List.append_nil]

theorem zipIdx_map_range (f : Nat → α) (n : Nat) :
    ((List.range n).map f).zipIdx = (List.range n).map fun i => (f i, i) := by
  apply List.ext_getElem <;> simp

theorem flatMap_range_cons_perm {j : Nat} (hj : j < n) (x : α) (f : Nat → List α) :
    ((List.range n).flatMap fun i => if j = i then x :: f i else f i).Perm
      (x :: (List.range n).flatMap f) := by
  have hsame : ∀ is : List Nat, j ∉ is →
      (is.flatMap fun i => if j = i then x :: f i else f i) = is.flatMap f := by
    intro is his
    apply List.flatMap_congr
    intro i hi
    rw [if_neg fun h : j = i => his (h ▸ hi)]
  obtain ⟨before, after, hrange⟩ := List.append_of_mem (List.mem_range.mpr hj)
  have hnodup : (List.range n).Nodup := List.nodup_range
  rw [hrange, List.nodup_middle, List.nodup_cons, List.mem_append, not_or] at hnodup
  rw [hrange, List.flatMap_append, List.flatMap_cons, hsame before hnodup.1.1,
    hsame after hnodup.1.2, if_pos rfl, List.flatMap_append, List.flatMap_cons]
  exact List.perm_middle

/-- The shares of a list are a rearrangement of the list. -/
theorem flatMap_filter_perm (number : α → Nat) (xs : List α) (hxs : ∀ x ∈ xs, number x < n) :
    ((List.range n).flatMap fun i => xs.filter fun x => number x = i).Perm xs := by
  induction xs with
  | nil => simp
  | cons x xs ih =>
      have hfilter : ∀ i, ((x :: xs).filter fun y => number y = i)
          = if number x = i then x :: xs.filter (fun y => number y = i)
            else xs.filter fun y => number y = i := by
        intro i
        by_cases hi : number x = i <;> simp [hi]
      simp only [hfilter]
      calc ((List.range n).flatMap fun i => if number x = i then
              x :: xs.filter (fun y => number y = i) else xs.filter fun y => number y = i)
          ~ x :: ((List.range n).flatMap fun i => xs.filter fun y => number y = i) :=
            flatMap_range_cons_perm (hxs x (by simp)) x _
        _ ~ x :: xs := (ih fun y hy => hxs y (by simp [hy])).cons x

end MapReduce
