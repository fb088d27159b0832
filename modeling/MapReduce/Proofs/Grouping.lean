import Mathlib.Data.List.Dedup
import MapReduce.Record

/-!
# Order and grouping

Dictionary order on byte strings is a total order. Sorting whole lines brings the lines of one key
together, since a space, which no key holds, ends each key. In a list whose keys stand together,
the runs of equal keys are the classes of equal keys.
-/

namespace MapReduce

namespace Bytes

/-! ### Dictionary order -/

theorem le_antisymm {a b : Bytes} (hab : le a b = true) (hba : le b a = true) : a = b := by
  induction a generalizing b with
  | nil =>
      cases b with
      | nil => rfl
      | cons y b => simp [le] at hba
  | cons x a ih =>
      cases b with
      | nil => simp [le] at hab
      | cons y b =>
          by_cases hxy : x = y
          · subst hxy
            rw [ih (by simpa [le] using hab) (by simpa [le] using hba)]
          · have hlt : x < y := by simpa [le, hxy] using hab
            have hgt : y < x := by simpa [le, Ne.symm hxy] using hba
            exact absurd hgt (UInt8.lt_asymm hlt)

/-- The order of the lines of two keys without spaces is at least the order of the keys. -/
theorem le_of_le_append_space {k k' v v' : Bytes} (hk : space ∉ k) (hk' : space ∉ k')
    (h : le (k ++ space :: v) (k' ++ space :: v') = true) :
    le (k ++ [space]) (k' ++ [space]) = true := by
  induction k generalizing k' with
  | nil =>
      cases k' with
      | nil => simp [le]
      | cons y k' =>
          have hne : space ≠ y := fun h => hk' (by simp [h])
          simpa [le, hne] using h
  | cons x k ih =>
      obtain ⟨hx, hk⟩ := List.ne_and_not_mem_of_not_mem_cons hk
      cases k' with
      | nil =>
          simp only [List.cons_append, List.nil_append, le] at h ⊢
          simpa [Ne.symm hx] using h
      | cons y k' =>
          have hrest : space ∉ k' := (List.ne_and_not_mem_of_not_mem_cons hk').2
          by_cases hxy : x = y
          · subst hxy
            have htail : le (k ++ space :: v) (k' ++ space :: v') = true := by simpa [le] using h
            simpa [le] using ih hk hrest htail
          · simpa [le, hxy] using h

/-- Keys in the order of their lines. -/
def keyLe (k k' : Bytes) : Bool :=
  le (k ++ [space]) (k' ++ [space])

theorem keyLe_antisymm {k k' : Bytes} (h : keyLe k k' = true) (h' : keyLe k' k = true) : k = k' :=
  List.append_cancel_right (le_antisymm h h')

theorem le_append_left (a b c : Bytes) : le (a ++ b) (a ++ c) = le b c := by
  induction a with
  | nil => rfl
  | cons x a ih => simpa [le] using ih

/-- The second key goes on from the first with a byte below the space, which ends the first. -/
def Undercuts (k k' : Bytes) : Prop :=
  ∃ b rest, k' = k ++ b :: rest ∧ b < space

theorem Undercuts.le {k k' : Bytes} (h : Undercuts k k') : le k k' = true := by
  obtain ⟨b, rest, rfl, -⟩ := h
  simpa [Bytes.le] using le_append_left k [] (b :: rest)

theorem Undercuts.keyLe {k k' : Bytes} (h : Undercuts k k') : keyLe k' k = true := by
  obtain ⟨b, rest, rfl, hb⟩ := h
  rw [Bytes.keyLe, List.append_assoc, le_append_left]
  simp [Bytes.le, UInt8.ne_of_lt hb, hb]

/-- Undercutting is all that tells the order of lines from the order of keys. -/
theorem keyLe_eq_le {k k' : Bytes} (h : ¬ Undercuts k k') (h' : ¬ Undercuts k' k) :
    keyLe k k' = le k k' := by
  induction k generalizing k' with
  | nil =>
      cases k' with
      | nil => rfl
      | cons y k' =>
          have hy : ¬ y < space := fun hlt => h ⟨y, k', rfl, hlt⟩
          by_cases hspace : space = y
          · simp [keyLe, le, hspace]
          · simpa [keyLe, le, hspace] using (UInt8.lt_or_lt_of_ne hspace).resolve_right hy
  | cons x k ih =>
      cases k' with
      | nil =>
          have hx : ¬ x < space := fun hlt => h' ⟨x, k, rfl, hlt⟩
          cases k <;> simp [keyLe, le, hx]
      | cons y k' =>
          by_cases hxy : x = y
          · subst hxy
            have hmore : ∀ {a b : Bytes}, Undercuts a b → Undercuts (x :: a) (x :: b) := by
              rintro a b ⟨c, rest, rfl, hc⟩
              exact ⟨c, rest, rfl, hc⟩
            simpa [keyLe, le] using ih (mt hmore h) (mt hmore h')
          · simp [keyLe, le, hxy]

/-! ### Ascending keys -/

/-- In dictionary order, each once. -/
def Ascending (ks : List Bytes) : Prop :=
  ks.Pairwise fun k k' => le k k' = true ∧ k ≠ k'

/-- In the order of their lines, each once. -/
def LineAscending (ks : List Bytes) : Prop :=
  ks.Pairwise fun k k' => keyLe k k' = true ∧ k ≠ k'

instance (ks : List Bytes) : Decidable (Ascending ks) :=
  inferInstanceAs (Decidable (ks.Pairwise _))

instance (ks : List Bytes) : Decidable (LineAscending ks) :=
  inferInstanceAs (Decidable (ks.Pairwise _))

theorem Ascending.cons {k k' : Bytes} {ks : List Bytes} (h : Ascending (k :: ks))
    (hle : le k' k = true) (hne : k ≠ k') : Ascending (k' :: k :: ks) := by
  obtain ⟨hbefore, -⟩ := List.pairwise_cons.mp h
  refine List.pairwise_cons.mpr ⟨?_, h⟩
  intro x hx
  rcases List.mem_cons.mp hx with rfl | hx
  · exact ⟨hle, hne.symm⟩
  · refine ⟨le_trans hle (hbefore x hx).1, ?_⟩
    rintro rfl
    exact hne (le_antisymm (hbefore _ hx).1 hle)

/-- Keys in the order of their lines are in dictionary order as long as none undercuts another. -/
theorem LineAscending.ascending_iff {ks : List Bytes} (h : LineAscending ks) :
    Ascending ks ↔ ∀ k ∈ ks, ∀ k' ∈ ks, ¬ Undercuts k k' := by
  constructor
  · intro hascending k hk k' hk'
    have hself : ∀ k ∈ ks, ¬ Undercuts k k := by
      rintro k - ⟨b, rest, hlonger, -⟩
      simp at hlonger
    have hbehind : ks.Pairwise fun k k' => ¬ Undercuts k k' :=
      h.imp fun hle hundercuts => hle.2 (keyLe_antisymm hle.1 hundercuts.keyLe)
    have hbefore : ks.Pairwise (flip fun k k' => ¬ Undercuts k k') :=
      hascending.imp fun hle hundercuts => hle.2 (le_antisymm hle.1 hundercuts.le)
    exact hbehind.forall_of_forall_of_flip hself hbefore hk hk'
  · intro hfree
    refine h.imp_of_mem fun hk hk' hle => ⟨?_, hle.2⟩
    rw [← keyLe_eq_le (hfree _ hk _ hk') (hfree _ hk' _ hk)]
    exact hle.1

/-! ### Sorting -/

/-- There is one way only to bring byte strings into order, whatever sorts them. -/
theorem eq_mergeSort_of_perm {xs ys : List Bytes} (hperm : xs.Perm ys)
    (hsorted : xs.Pairwise fun a b => le a b = true) : xs = ys.mergeSort le :=
  (hperm.trans (List.mergeSort_perm ys le).symm).eq_of_pairwise
    (fun _ _ _ _ => le_antisymm) hsorted (pairwise_mergeSort ys)

theorem pairwise_mergeSort_keyLe (xs : List Bytes) :
    (xs.mergeSort keyLe).Pairwise fun a b => keyLe a b = true := by
  have htrans : ∀ a b c : Bytes, keyLe a b = true → keyLe b c = true → keyLe a c = true :=
    fun _ _ _ => le_trans
  have htotal : ∀ a b : Bytes, (keyLe a b || keyLe b a) = true := fun _ _ => le_total' _ _
  exact List.pairwise_mergeSort htrans htotal xs

theorem eq_mergeSort_keyLe_of_perm {xs ys : List Bytes} (hperm : xs.Perm ys)
    (hsorted : xs.Pairwise fun a b => keyLe a b = true) : xs = ys.mergeSort keyLe :=
  (hperm.trans (List.mergeSort_perm ys keyLe).symm).eq_of_pairwise
    (fun _ _ _ _ => keyLe_antisymm) hsorted (pairwise_mergeSort_keyLe ys)

end Bytes

/-! ### Runs -/

section Runs

variable {κ ν : Type} [DecidableEq κ]

/-- Neighbouring entries with equal keys become one, with their values in order. -/
def groupRuns (entries : List (κ × ν)) : List (κ × List ν) :=
  entries.foldr
    (fun entry groups =>
      match groups with
      | [] => [(entry.1, [entry.2])]
      | group :: rest =>
        if entry.1 = group.1 then (group.1, entry.2 :: group.2) :: rest
        else (entry.1, [entry.2]) :: group :: rest)
    []

def valuesOf (k : κ) (entries : List (κ × ν)) : List ν :=
  (entries.filter fun e => e.1 = k).map Prod.snd

theorem valuesOf_cons_self (k : κ) (v : ν) (entries : List (κ × ν)) :
    valuesOf k ((k, v) :: entries) = v :: valuesOf k entries := by
  simp [valuesOf]

theorem valuesOf_cons_of_ne {k : κ} {e : κ × ν} (h : e.1 ≠ k) (entries : List (κ × ν)) :
    valuesOf k (e :: entries) = valuesOf k entries := by
  simp [valuesOf, h]

theorem valuesOf_of_notMem {k : κ} {entries : List (κ × ν)} (h : k ∉ entries.map Prod.fst) :
    valuesOf k entries = [] := by
  rw [valuesOf, List.map_eq_nil_iff, List.filter_eq_nil_iff]
  intro e he hk
  exact h (List.mem_map.mpr ⟨e, he, by simpa using hk⟩)

theorem valuesOf_append (k : κ) (xs ys : List (κ × ν)) :
    valuesOf k (xs ++ ys) = valuesOf k xs ++ valuesOf k ys := by
  simp [valuesOf]

theorem valuesOf_perm (k : κ) {xs ys : List (κ × ν)} (h : xs.Perm ys) :
    (valuesOf k xs).Perm (valuesOf k ys) :=
  (h.filter _).map _

theorem length_valuesOf [BEq κ] [LawfulBEq κ] (k : κ) (entries : List (κ × ν)) :
    (valuesOf k entries).length = (entries.map Prod.fst).count k := by
  simp [valuesOf, List.count_eq_length_filter, List.filter_map, Function.comp_def, beq_eq_decide]

omit ν in
theorem filter_dedup_eq (k : κ) (ks : List κ) :
    ks.dedup.filter (fun k' => k' = k) = if k ∈ ks then [k] else [] := by
  rw [List.filter_eq, List.count_dedup]
  split <;> rfl

theorem exists_groupRuns_cons (e : κ × ν) (entries : List (κ × ν)) :
    ∃ vs gs, groupRuns (e :: entries) = (e.1, vs) :: gs := by
  rw [groupRuns, List.foldr_cons]
  split
  · exact ⟨_, _, rfl⟩
  · split
    · next h => exact ⟨_, _, by rw [h]⟩
    · exact ⟨_, _, rfl⟩

theorem groupRuns_cons_of_eq {k : κ} {v : ν} {entries : List (κ × ν)} {vs : List ν}
    {gs : List (κ × List ν)} (h : groupRuns entries = (k, vs) :: gs) :
    groupRuns ((k, v) :: entries) = (k, v :: vs) :: gs := by
  rw [groupRuns] at h
  simp [groupRuns, h]

theorem groupRuns_cons_of_ne {k : κ} {v : ν} {entries : List (κ × ν)}
    (h : ∀ g ∈ (groupRuns entries).head?, k ≠ g.1) :
    groupRuns ((k, v) :: entries) = (k, [v]) :: groupRuns entries := by
  rw [groupRuns, List.foldr_cons, ← groupRuns]
  cases hruns : groupRuns entries with
  | nil => rfl
  | cons g gs => simp [h g (by simp [hruns])]

/-- When equal keys stand together, each key has one run, with all of its values. -/
theorem groupRuns_eq {r : κ → κ → Prop} (hantisymm : ∀ {a b}, r a b → r b a → a = b)
    (entries : List (κ × ν)) (hsorted : (entries.map Prod.fst).Pairwise r) :
    groupRuns entries = (entries.map Prod.fst).dedup.map fun k => (k, valuesOf k entries) := by
  induction entries with
  | nil => rfl
  | cons e entries ih =>
      obtain ⟨k, v⟩ := e
      rw [List.map_cons, List.pairwise_cons] at hsorted
      have hgroups := ih hsorted.2
      by_cases hk : k ∈ entries.map Prod.fst
      · obtain ⟨e, entries, rfl⟩ : ∃ e rest, entries = e :: rest :=
          List.exists_cons_of_ne_nil fun h => by simp [h] at hk
        have hhead : k = e.1 := by
          by_contra hne
          have hmem : k ∈ entries.map Prod.fst := by simpa [hne] using hk
          exact hne (hantisymm (hsorted.1 _ (by simp)) ((List.pairwise_cons.mp hsorted.2).1 _ hmem))
        obtain ⟨vs, gs, hruns⟩ := exists_groupRuns_cons e entries
        rw [← hhead] at hruns
        rw [groupRuns_cons_of_eq hruns, List.map_cons, List.dedup_cons_of_mem hk]
        rw [hruns] at hgroups
        obtain ⟨k', keys, hdedup, hfirst, hrest⟩ := List.map_eq_cons_iff.mp hgroups.symm
        obtain ⟨rfl, rfl⟩ := Prod.mk.inj hfirst
        have hnodup := List.nodup_dedup ((e :: entries).map Prod.fst)
        rw [hdedup, List.nodup_cons] at hnodup
        rw [hdedup, List.map_cons, valuesOf_cons_self, ← hrest]
        refine congrArg _ (List.map_congr_left ?_)
        intro k'' hk''
        rw [valuesOf_cons_of_ne (e := (k', v)) fun h => hnodup.1 (by simpa [← h] using hk'')]
      · have hhead : ∀ g ∈ (groupRuns entries).head?, k ≠ g.1 := by
          intro g hg hkg
          have hmem : g ∈ groupRuns entries := List.mem_of_mem_head? hg
          rw [hgroups, List.mem_map] at hmem
          obtain ⟨k', hk', rfl⟩ := hmem
          exact hk (hkg ▸ List.mem_dedup.mp hk')
        rw [groupRuns_cons_of_ne hhead, List.map_cons, List.dedup_cons_of_notMem hk, List.map_cons,
          valuesOf_cons_self, valuesOf_of_notMem hk, hgroups]
        refine congrArg _ (List.map_congr_left ?_)
        intro k' hk'
        rw [valuesOf_cons_of_ne fun h : k = k' => hk (h ▸ List.mem_dedup.mp hk')]

end Runs

end MapReduce
