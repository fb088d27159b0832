import Mathlib.Algebra.Ring.Nat
import MapReduce.Proofs.Number
import MapReduce.Proofs.Tokens
import MapReduce.Workload.Catalog

/-!
# Adding up counts

What a reducer of counts comes to on any values at all. It adds from left to right and stops at the
first value that is no count, or at the first sum for which there is no room, whichever comes first.
-/

namespace MapReduce

open scoped List

/-! ### Records of counts -/

theorem Workload.isToken_encodeCount (n : Nat) : WordCount.IsToken (Workload.encodeCount n) where
  isText := Utf8.isText_encode _
  ne_nil h := Nat.toDigits_ne_nil (Utf8.encode_injective h)
  space_notMem := Workload.notMem_encodeCount n (by decide)
  newline_notMem := Workload.notMem_encodeCount n (by decide)

namespace Record

variable {r : Record} {n : Nat}

theorem withoutReturn_of_encodeCount (h : r.value = Workload.encodeCount n) :
    r.withoutReturn = r := by
  apply withoutReturn_of_getLast?
  intro hlast
  rw [h] at hlast
  exact Workload.notMem_encodeCount n (by decide) (List.mem_of_getLast? hlast)

theorem writable_of_isToken (hkey : WordCount.IsToken r.key)
    (hvalue : r.value = Workload.encodeCount n) : r.Writable where
  key_ne_nil := hkey.ne_nil
  space_notMem_key := hkey.space_notMem
  space_notMem_value := hvalue ▸ (Workload.isToken_encodeCount n).space_notMem
  newline_notMem_value := hvalue ▸ (Workload.isToken_encodeCount n).newline_notMem
  newline_notMem_key := hkey.newline_notMem

theorem isText_line_of_isToken (hkey : WordCount.IsToken r.key)
    (hvalue : r.value = Workload.encodeCount n) : Utf8.IsText r.line := by
  rw [line, Utf8.isText_append_space hkey.space_notMem, hvalue]
  exact ⟨hkey.isText, Utf8.isText_encode _⟩

end Record

/-! ### Sums -/

namespace Workload

variable {values values' : List Bytes} {value : Bytes} {total n m c : Nat} {e : WorkloadError}
  {fault : Fault}

/-- All values are counts, and this is their sum, however large. -/
inductive AddUpTo : List Bytes → Nat → Prop where
  | nil : AddUpTo [] 0
  | cons {value : Bytes} {values : List Bytes} {c n : Nat} (hvalue : decodeCount value = .ok c)
      (h : AddUpTo values n) : AddUpTo (value :: values) (c + n)

/-- The sum has outgrown a count before there is a value that is none. -/
def Overflows (values : List Bytes) : Prop :=
  ∃ before after n, values = before ++ after ∧ AddUpTo before n ∧ countLimit ≤ n

namespace AddUpTo

theorem unique (h : AddUpTo values n) (h' : AddUpTo values m) : n = m := by
  induction h generalizing m with
  | nil => cases h'; rfl
  | cons hvalue _ ih =>
      cases h' with
      | cons hvalue' h' => rw [Except.ok.inj (hvalue.symm.trans hvalue'), ih h']

theorem perm (h : AddUpTo values n) (hperm : values ~ values') : AddUpTo values' n := by
  induction hperm generalizing n with
  | nil => exact h
  | cons value _ ih =>
      cases h with
      | cons hvalue h => exact .cons hvalue (ih h)
  | swap a b values =>
      cases h with
      | cons hb h =>
          cases h with
          | cons ha h =>
              rw [Nat.add_left_comm]
              exact .cons ha (.cons hb h)
  | trans _ _ ih ih' => exact ih' (ih h)

end AddUpTo

/-- Counts that have been written down add up as they did. -/
theorem addUpTo_encodeCount {cs : List Nat} (hroom : cs.sum < countLimit) :
    AddUpTo (cs.map encodeCount) cs.sum := by
  induction cs with
  | nil => exact .nil
  | cons c cs ih =>
      rw [List.sum_cons] at hroom ⊢
      rw [List.map_cons]
      exact .cons (decodeCount_encodeCount (by omega)) (ih (by omega))

theorem decodeCount_ne_fault (value : Bytes) (fault : Fault) :
    decodeCount value ≠ .error (.fault fault) := by
  rw [decodeCount, decodeText]
  cases Utf8.decode value with
  | error e => simp [Except.mapError, bind, Except.bind]
  | ok text =>
      change Except.mapError _ (Text.readCount text) ≠ _
      cases Text.readCount text <;> simp [Except.mapError]

theorem sumCounts_cons_of_error (hvalue : decodeCount value = .error e) (total : Nat)
    (values : List Bytes) : sumCounts total (value :: values) = .error e := by
  rw [sumCounts, hvalue]
  rfl

theorem sumCounts_cons_of_lt (hvalue : decodeCount value = .ok c) (hroom : total + c < countLimit)
    (values : List Bytes) : sumCounts total (value :: values) = sumCounts (total + c) values := by
  simp only [sumCounts, hvalue, addCounts, if_pos hroom, bind, Except.bind]

theorem sumCounts_cons_of_le (hvalue : decodeCount value = .ok c) (hfull : countLimit ≤ total + c)
    (values : List Bytes) :
    sumCounts total (value :: values) = .error (.fault .additionOverflow) := by
  simp only [sumCounts, hvalue, addCounts, if_neg (Nat.not_lt.mpr hfull), bind, Except.bind]

/-- A sum that is given is the exact one. -/
theorem sumCounts_eq_ok_iff (htotal : total < countLimit) :
    sumCounts total values = .ok m ↔ ∃ n, AddUpTo values n ∧ total + n = m ∧ m < countLimit := by
  induction values generalizing total with
  | nil =>
      constructor
      · intro h
        obtain rfl := Except.ok.inj h
        exact ⟨0, .nil, rfl, htotal⟩
      · rintro ⟨n, hn, rfl, -⟩
        cases hn
        rfl
  | cons value values ih =>
      cases hvalue : decodeCount value with
      | error e =>
          rw [sumCounts_cons_of_error hvalue]
          refine ⟨nofun, ?_⟩
          rintro ⟨n, hn, -⟩
          cases hn with
          | cons hcount _ => simp [hvalue] at hcount
      | ok c =>
          have hcons : (∃ n, AddUpTo (value :: values) n ∧ total + n = m ∧ m < countLimit)
              ↔ ∃ n, AddUpTo values n ∧ total + c + n = m ∧ m < countLimit := by
            constructor
            · rintro ⟨n, hn, hsum, hroom⟩
              cases hn with
              | cons hcount hn =>
                  obtain rfl := Except.ok.inj (hvalue.symm.trans hcount)
                  exact ⟨_, hn, by omega, hroom⟩
            · rintro ⟨n, hn, hsum, hroom⟩
              exact ⟨c + n, .cons hvalue hn, by omega, hroom⟩
          rw [hcons]
          by_cases hroom : total + c < countLimit
          · rw [sumCounts_cons_of_lt hvalue hroom, ih hroom]
          · rw [sumCounts_cons_of_le hvalue (Nat.not_lt.mp hroom)]
            refine ⟨nofun, ?_⟩
            rintro ⟨n, -, hsum, hlimit⟩
            omega

/-- Where there is no sum and no value is to blame, the values before some place have outgrown a
count. -/
theorem sumCounts_eq_fault_iff (htotal : total < countLimit) :
    sumCounts total values = .error (.fault fault) ↔ fault = .additionOverflow
      ∧ ∃ before after n, values = before ++ after ∧ AddUpTo before n ∧ countLimit ≤ total + n := by
  induction values generalizing total with
  | nil =>
      refine ⟨nofun, ?_⟩
      rintro ⟨-, before, after, n, hvalues, hn, hfull⟩
      obtain ⟨rfl, -⟩ := List.nil_eq_append_iff.mp hvalues
      cases hn
      omega
  | cons value values ih =>
      cases hvalue : decodeCount value with
      | error e =>
          rw [sumCounts_cons_of_error hvalue]
          constructor
          · intro h
            exact absurd (hvalue.trans h) (decodeCount_ne_fault value fault)
          · rintro ⟨-, before, after, n, hvalues, hn, hfull⟩
            cases hn with
            | nil => omega
            | cons hcount _ =>
                obtain ⟨rfl, -⟩ := List.cons.inj hvalues
                simp [hvalue] at hcount
      | ok c =>
          by_cases hroom : total + c < countLimit
          · rw [sumCounts_cons_of_lt hvalue hroom, ih hroom]
            refine and_congr_right fun _ => ?_
            constructor
            · rintro ⟨before, after, n, rfl, hn, hfull⟩
              exact ⟨value :: before, after, c + n, rfl, .cons hvalue hn, by omega⟩
            · rintro ⟨before, after, n, hvalues, hn, hfull⟩
              cases hn with
              | nil => omega
              | cons hcount hn =>
                  obtain ⟨rfl, rfl⟩ := List.cons.inj hvalues
                  obtain rfl := Except.ok.inj (hvalue.symm.trans hcount)
                  exact ⟨_, after, _, rfl, hn, by omega⟩
          · rw [sumCounts_cons_of_le hvalue (Nat.not_lt.mp hroom)]
            constructor
            · intro h
              obtain rfl : Fault.additionOverflow = fault := by simpa using h
              exact ⟨rfl, [value], values, c, rfl, .cons hvalue .nil, Nat.not_lt.mp hroom⟩
            · rintro ⟨rfl, -⟩
              rfl

/-! ### Reducers that add up -/

/-- A reduce function that gives the line of the key and the sum, and fails as the sum does. -/
def Sums (f : ReduceFunction) : Prop :=
  ∀ key values aux, Utf8.IsText key → f key values aux = (sumCounts 0 values).map (countLine key)

theorem sums_wordCount : Sums WordCount.reduce := by
  intro key values aux _
  rw [WordCount.reduce]
  cases sumCounts 0 values <;> rfl

theorem sums_vertexDegree : Sums VertexDegree.reduce := by
  intro key values aux hkey
  obtain ⟨text, hdecode⟩ := Utf8.isText_iff_decode.mp hkey
  rw [VertexDegree.reduce, decodeText, hdecode]
  cases sumCounts 0 values <;> rfl

theorem sums_of_named? {name : String} {w : Workload} (h : named? name = some w) :
    Sums w.reduce := by
  unfold named? at h
  split at h
  · obtain rfl := Option.some.inj h
    exact sums_wordCount
  · obtain rfl := Option.some.inj h
    exact sums_vertexDegree
  · cases h

variable {f : ReduceFunction} {key aux line : Bytes}

theorem Sums.eq_ok_iff (hf : Sums f) (hkey : Utf8.IsText key) :
    f key values aux = .ok line
      ↔ ∃ n, AddUpTo values n ∧ n < countLimit ∧ line = countLine key n := by
  rw [hf key values aux hkey]
  cases hsum : sumCounts 0 values with
  | error e =>
      refine ⟨nofun, ?_⟩
      rintro ⟨n, hn, hroom, -⟩
      have hok := (sumCounts_eq_ok_iff (by decide)).mpr ⟨n, hn, Nat.zero_add n, hroom⟩
      simp [hsum] at hok
  | ok m =>
      obtain ⟨n, hn, hm, hroom⟩ := (sumCounts_eq_ok_iff (by decide)).mp hsum
      obtain rfl : n = m := by omega
      constructor
      · intro h
        exact ⟨n, hn, hroom, (Except.ok.inj h).symm⟩
      · rintro ⟨n', hn', -, rfl⟩
        rw [hn.unique hn']
        rfl

theorem Sums.eq_fault_iff (hf : Sums f) (hkey : Utf8.IsText key) :
    f key values aux = .error (.fault fault) ↔ fault = .additionOverflow ∧ Overflows values := by
  have hsum : sumCounts 0 values = .error (.fault fault)
      ↔ fault = .additionOverflow ∧ Overflows values := by
    rw [sumCounts_eq_fault_iff (by decide)]
    simp only [Nat.zero_add, Overflows]
  rw [hf key values aux hkey, ← hsum]
  cases sumCounts 0 values <;> simp [Except.map]

end Workload

end MapReduce
