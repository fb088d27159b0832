import Mathlib.Data.List.TakeWhile
import MapReduce.Bytes

/-!
# Stretches and lines

A text without separators is one stretch, and a separator cuts a text in two whose stretches follow
each other. A text is either one line without a newline or a line, a newline and a text; the proofs
about lines are inductions of that shape.
-/

namespace MapReduce

/-- A list is cut at the first element that fails a test in one way only. -/
theorem cut_unique_of {α : Type} {p : α → Prop} {x x' : α} {a a' b b' : List α}
    (ha : ∀ y ∈ a, p y) (hx : ¬ p x) (ha' : ∀ y ∈ a', p y) (hx' : ¬ p x')
    (h : a ++ x :: b = a' ++ x' :: b') : a = a' ∧ x = x' ∧ b = b' := by
  induction a generalizing a' with
  | nil =>
      cases a' with
      | nil =>
          obtain ⟨rfl, rfl⟩ := List.cons.inj h
          exact ⟨rfl, rfl, rfl⟩
      | cons y a' =>
          obtain ⟨rfl, -⟩ := List.cons.inj h
          exact absurd (ha' x List.mem_cons_self) hx
  | cons y a ih =>
      cases a' with
      | nil => exact absurd ((List.cons.inj h).1 ▸ ha y List.mem_cons_self) hx'
      | cons z a' =>
          obtain ⟨rfl, htail⟩ := List.cons.inj h
          obtain ⟨rfl, hcut⟩ := ih (fun w hw => ha w (List.mem_cons_of_mem _ hw))
            (fun w hw => ha' w (List.mem_cons_of_mem _ hw)) htail
          exact ⟨rfl, hcut⟩

theorem exists_append_of_forall {α : Type} {p : α → Prop} {x : α} {a b passed ls : List α}
    (hpassed : ∀ y ∈ passed, p y) (hx : ¬ p x) (h : passed ++ ls = a ++ x :: b) :
    ∃ more, a = passed ++ more ∧ ls = more ++ x :: b := by
  rcases List.append_eq_append_iff.mp h with ⟨more, ha, hls⟩ | ⟨more, hpassed', hb⟩
  · exact ⟨more, ha, hls⟩
  · cases more with
    | nil => exact ⟨[], by simpa using hpassed'.symm, by simpa using hb.symm⟩
    | cons y more =>
        obtain ⟨rfl, -⟩ := List.cons.inj hb
        exact absurd (hpassed x (by simp [hpassed'])) hx

/-- A list is cut at its first separator in one way only. -/
theorem cut_unique {α : Type} {x : α} {a a' b b' : List α} (ha : x ∉ a) (ha' : x ∉ a')
    (h : a ++ x :: b = a' ++ x :: b') : a = a' ∧ b = b' := by
  obtain ⟨hcut, -, hrest⟩ := cut_unique_of (p := (· ≠ x)) (fun y hy hyx => ha (hyx ▸ hy)) (by simp)
    (fun y hy hyx => ha' (hyx ▸ hy)) (by simp) h
  exact ⟨hcut, hrest⟩

section Stretches

variable {α : Type} {p : α → Bool}

theorem splitWhere_ne_nil (p : α → Bool) (xs : List α) : splitWhere p xs ≠ [] := by
  cases xs with
  | nil => simp [splitWhere]
  | cons x xs =>
      rw [splitWhere, List.foldr_cons]
      split
      · simp
      · cases List.foldr _ _ xs <;> simp [consFirst]

theorem splitWhere_cons_of_pos {x : α} (hx : p x = true) (xs : List α) :
    splitWhere p (x :: xs) = [] :: splitWhere p xs := by
  simp [splitWhere, hx]

theorem splitWhere_cons_of_neg {x : α} (hx : p x = false) (xs : List α) :
    splitWhere p (x :: xs) = consFirst x (splitWhere p xs) := by
  simp [splitWhere, hx]

theorem splitWhere_of_forall {xs : List α} (hxs : ∀ x ∈ xs, p x = false) :
    splitWhere p xs = [xs] := by
  induction xs with
  | nil => rfl
  | cons x xs ih =>
      rw [splitWhere_cons_of_neg (hxs x (by simp)), ih fun y hy => hxs y (by simp [hy])]
      rfl

theorem splitWhere_append_cons {x : α} (hx : p x = true) (a b : List α) :
    splitWhere p (a ++ x :: b) = splitWhere p a ++ splitWhere p b := by
  induction a with
  | nil => simp [splitWhere_cons_of_pos hx]; rfl
  | cons y a ih =>
      cases hy : p y with
      | true => rw [List.cons_append, splitWhere_cons_of_pos hy, splitWhere_cons_of_pos hy, ih]; rfl
      | false =>
          rw [List.cons_append, splitWhere_cons_of_neg hy, splitWhere_cons_of_neg hy, ih]
          cases hparts : splitWhere p a with
          | nil => exact absurd hparts (splitWhere_ne_nil p a)
          | cons part parts => rfl

theorem forall_mem_splitWhere (p : α → Bool) (xs : List α) :
    ∀ part ∈ splitWhere p xs, ∀ x ∈ part, p x = false := by
  induction xs with
  | nil => simp [splitWhere]
  | cons x xs ih =>
      cases hx : p x with
      | true => simpa [splitWhere_cons_of_pos hx] using ih
      | false =>
          rw [splitWhere_cons_of_neg hx]
          cases hparts : splitWhere p xs with
          | nil => exact absurd hparts (splitWhere_ne_nil p xs)
          | cons part parts => simpa [consFirst, hparts, hx] using ih

theorem forall_or_exists_first (p : α → Bool) (xs : List α) :
    (∀ x ∈ xs, p x = false)
      ∨ ∃ a x b, xs = a ++ x :: b ∧ p x = true ∧ ∀ y ∈ a, p y = false := by
  induction xs with
  | nil => exact Or.inl (by simp)
  | cons x xs ih =>
      cases hx : p x with
      | true => exact Or.inr ⟨[], x, xs, rfl, hx, by simp⟩
      | false =>
          rcases ih with h | ⟨a, y, b, rfl, hy, ha⟩
          · exact Or.inl (by simpa [hx] using h)
          · exact Or.inr ⟨x :: a, y, b, rfl, hy, by simpa [hx] using ha⟩

theorem eq_of_splitWhere_eq_singleton {xs a : List α} (h : splitWhere p xs = [a]) : xs = a := by
  rcases forall_or_exists_first p xs with hxs | ⟨b, x, c, rfl, hx, hb⟩
  · simpa [splitWhere_of_forall hxs] using h
  · rw [splitWhere_append_cons hx, splitWhere_of_forall hb, List.singleton_append] at h
    exact absurd (List.cons.inj h).2 (splitWhere_ne_nil p c)

theorem eq_append_of_splitWhere_eq_cons {xs a b : List α} {parts : List (List α)}
    (h : splitWhere p xs = a :: b :: parts) :
    ∃ x ys, p x = true ∧ xs = a ++ x :: ys ∧ splitWhere p ys = b :: parts := by
  rcases forall_or_exists_first p xs with hxs | ⟨a', x, c, rfl, hx, ha'⟩
  · simp [splitWhere_of_forall hxs] at h
  · rw [splitWhere_append_cons hx, splitWhere_of_forall ha', List.singleton_append] at h
    obtain ⟨rfl, hc⟩ := List.cons.inj h
    exact ⟨x, c, hx, rfl, hc⟩

end Stretches

namespace Line

variable {α : Type} [BEq α] [LawfulBEq α] {nl : α}

omit [LawfulBEq α] in
@[simp]
theorem split_nil : split nl ([] : List α) = [] := rfl

@[simp]
theorem split_cons_newline (xs : List α) : split nl (nl :: xs) = ⟨[], true⟩ :: split nl xs := by
  simp [split]

theorem split_cons_of_ne {x : α} (hx : x ≠ nl) (xs : List α) :
    split nl (x :: xs) = cons x (split nl xs) := by
  simp [split, hx]

theorem split_append_newline {a : List α} (ha : nl ∉ a) (b : List α) :
    split nl (a ++ nl :: b) = ⟨a, true⟩ :: split nl b := by
  induction a with
  | nil => simp
  | cons x a ih =>
      obtain ⟨hx, ha⟩ := List.ne_and_not_mem_of_not_mem_cons ha
      rw [List.cons_append, split_cons_of_ne hx.symm, ih ha]
      rfl

theorem split_of_not_mem {a : List α} (ha : nl ∉ a) (hne : a ≠ []) :
    split nl a = [⟨a, false⟩] := by
  induction a with
  | nil => exact absurd rfl hne
  | cons x a ih =>
      obtain ⟨hx, ha⟩ := List.ne_and_not_mem_of_not_mem_cons ha
      rw [split_cons_of_ne hx.symm]
      cases a with
      | nil => rfl
      | cons y a => rw [ih ha (List.cons_ne_nil y a)]; rfl

omit [BEq α] [LawfulBEq α] in
/-- A text is a line without a newline, or a line with one and a text behind it. -/
theorem induction_on {motive : List α → Prop} [DecidableEq α] (nl : α) (xs : List α)
    (hlast : ∀ a, nl ∉ a → motive a)
    (hline : ∀ a b, nl ∉ a → motive b → motive (a ++ nl :: b)) : motive xs := by
  induction hn : xs.length using Nat.strongRecOn generalizing xs with
  | _ n ih =>
      by_cases hmem : nl ∈ xs
      · obtain ⟨a, b, rfl, ha⟩ := List.eq_append_cons_of_mem hmem
        refine hline a b ha (ih b.length ?_ b rfl)
        simp only [← hn, List.length_append, List.length_cons]
        omega
      · exact hlast xs hmem

theorem withoutReturn_concat [DecidableEq α] (mark : α) (xs : List α) (x : α) :
    withoutReturn mark ⟨xs ++ [x], true⟩ = if x = mark then xs else xs ++ [x] := by
  simp [withoutReturn]

omit [LawfulBEq α] in
theorem mem_of_mem_withoutReturn {mark x : α} {line : Line α}
    (h : x ∈ line.withoutReturn mark) : x ∈ line.content := by
  unfold withoutReturn at h
  split at h
  · exact List.dropLast_subset _ h
  · exact h

end Line

namespace Bytes

@[simp]
theorem lines_nil : lines [] = [] := rfl

theorem lines_append_newline {a : Bytes} (ha : newline ∉ a) (b : Bytes) :
    lines (a ++ newline :: b) = a :: lines b := by
  simp [lines, Line.split_append_newline ha]

theorem lines_of_not_mem {a : Bytes} (ha : newline ∉ a) (hne : a ≠ []) : lines a = [a] := by
  simp [lines, Line.split_of_not_mem ha hne]

theorem lines_eq_nil_iff {bs : Bytes} : lines bs = [] ↔ bs = [] := by
  refine ⟨?_, fun h => by simp [h]⟩
  intro h
  by_cases hmem : newline ∈ bs
  · obtain ⟨a, b, rfl, ha⟩ := List.eq_append_cons_of_mem hmem
    simp [lines_append_newline ha] at h
  · by_contra hne
    simp [lines_of_not_mem hmem hne] at h

/-- What a text with a first line looks like: the line and a newline in front of the other lines, or
the line alone. -/
theorem eq_of_lines_eq_cons {bs l : Bytes} {ls : List Bytes} (h : lines bs = l :: ls) :
    (∃ b, bs = l ++ newline :: b ∧ newline ∉ l ∧ lines b = ls)
      ∨ (bs = l ∧ newline ∉ bs ∧ bs ≠ [] ∧ ls = []) := by
  by_cases hmem : newline ∈ bs
  · obtain ⟨a, b, rfl, ha⟩ := List.eq_append_cons_of_mem hmem
    rw [lines_append_newline ha] at h
    obtain ⟨rfl, rfl⟩ := List.cons.inj h
    exact .inl ⟨b, rfl, ha, rfl⟩
  · have hne : bs ≠ [] := by
      rintro rfl
      cases h
    rw [lines_of_not_mem hmem hne] at h
    obtain ⟨rfl, rfl⟩ := List.cons.inj h
    exact .inr ⟨rfl, hmem, hne, rfl⟩

/-- Lines written out one after the other are read back. -/
theorem split_flatMap_terminate {ls : List Bytes} (hls : ∀ l ∈ ls, newline ∉ l) :
    Line.split newline (ls.flatMap terminate) = ls.map fun l => ⟨l, true⟩ := by
  induction ls with
  | nil => rfl
  | cons l ls ih =>
      rw [List.flatMap_cons, terminate, List.append_assoc, List.singleton_append,
        Line.split_append_newline (hls l (by simp)), ih fun l' hl' => hls l' (by simp [hl'])]
      rfl

theorem lines_flatMap_terminate {ls : List Bytes} (hls : ∀ l ∈ ls, newline ∉ l) :
    lines (ls.flatMap terminate) = ls := by
  simp [lines, split_flatMap_terminate hls, Function.comp_def]

theorem not_mem_of_mem_lines (bs : Bytes) : ∀ l ∈ lines bs, newline ∉ l := by
  induction bs using Line.induction_on newline with
  | hlast a ha =>
      by_cases hne : a = []
      · simp [hne]
      · simpa [lines_of_not_mem ha hne] using ha
  | hline a b ha ih => simpa [lines_append_newline ha, ha] using ih

/-! ### The first newline -/

theorem takeWhile_of_newline {a : Bytes} (ha : newline ∉ a) (b : Bytes) :
    (a ++ newline :: b).takeWhile (· != newline) = a := by
  have hall : ∀ x ∈ a, (x != newline) = true := by
    intro x hx
    simpa using fun h : x = newline => ha (h ▸ hx)
  simp [List.takeWhile_append_of_pos hall]

theorem dropWhile_of_newline {a : Bytes} (ha : newline ∉ a) (b : Bytes) :
    (a ++ newline :: b).dropWhile (· != newline) = newline :: b := by
  have hall : ∀ x ∈ a, (x != newline) = true := by
    intro x hx
    simpa using fun h : x = newline => ha (h ▸ hx)
  simp [List.dropWhile_append_of_pos hall]

theorem takeWhile_of_not_mem {a : Bytes} (ha : newline ∉ a) :
    a.takeWhile (· != newline) = a :=
  List.takeWhile_eq_self_iff.mpr fun x hx => by simpa using fun h : x = newline => ha (h ▸ hx)

theorem dropWhile_of_not_mem {a : Bytes} (ha : newline ∉ a) :
    a.dropWhile (· != newline) = [] :=
  List.dropWhile_eq_nil_iff.mpr fun x hx => by simpa using fun h : x = newline => ha (h ▸ hx)

end Bytes

end MapReduce
