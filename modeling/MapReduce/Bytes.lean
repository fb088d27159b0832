import MapReduce.Split

/-!
Byte strings, their order, and the lines of a file.
-/
namespace MapReduce

abbrev Bytes := List UInt8

namespace Bytes

def newline : UInt8 := 10
def carriageReturn : UInt8 := 13
def space : UInt8 := 32
def slash : UInt8 := 47

/-- Dictionary order: a string comes before every string it is the start of. -/
def le : Bytes → Bytes → Bool
  | [], _ => true
  | _ :: _, [] => false
  | a :: as, b :: bs => if a == b then le as bs else a < b

theorem le_total (a b : Bytes) : le a b = true ∨ le b a = true := by
  induction a generalizing b with
  | nil => exact Or.inl rfl
  | cons x a ih =>
      cases b with
      | nil => exact Or.inr rfl
      | cons y b =>
          by_cases hxy : x = y
          · subst hxy
            simpa [le] using ih b
          · rcases UInt8.lt_or_lt_of_ne hxy with h | h
            · exact Or.inl (by simp [le, hxy, h])
            · exact Or.inr (by simp [le, Ne.symm hxy, h])

theorem le_trans {a b c : Bytes} (hab : le a b = true) (hbc : le b c = true) :
    le a c = true := by
  induction a generalizing b c with
  | nil => rfl
  | cons x a ih =>
      cases b with
      | nil => simp [le] at hab
      | cons y b =>
          cases c with
          | nil => simp [le] at hbc
          | cons z c =>
              simp only [le, beq_iff_eq] at hab hbc ⊢
              split at hab
              · next hxy =>
                  subst hxy
                  split at hbc
                  · next hxz => simpa [hxz] using ih hab hbc
                  · next hxz => simpa [hxz] using hbc
              · next hxy =>
                  have hlt : x < y := by simpa using hab
                  split at hbc
                  · next hyz => simp [← hyz, hxy, hlt]
                  · have hxz : x < z := UInt8.lt_trans hlt (by simpa using hbc)
                    simp [UInt8.ne_of_lt hxz, hxz]

theorem le_total' (a b : Bytes) : (le a b || le b a) = true := by
  simpa using le_total a b

theorem pairwise_mergeSort (xs : List Bytes) :
    (xs.mergeSort le).Pairwise fun a b => le a b = true := by
  have htrans : ∀ a b c : Bytes, le a b = true → le b c = true → le a c = true :=
    fun _ _ _ => le_trans
  exact List.pairwise_mergeSort htrans le_total' xs

/-- The lines of a file, newlines removed. -/
def lines (bs : Bytes) : List Bytes :=
  (Line.split newline bs).map Line.content

def terminate (line : Bytes) : Bytes :=
  line ++ [newline]

end Bytes

end MapReduce
