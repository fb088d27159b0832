import MapReduce.Proofs.Utf8
import MapReduce.Workload

/-!
# Decimal numbers

A number is written with ASCII digits only, different numbers are written differently, and a count
is read back as what it was before it was written down.
-/

namespace MapReduce

namespace Text

theorem isDigit_of_mem_showCount {n : Nat} {c : Char} (h : c ∈ showCount n) : c.isDigit = true :=
  Nat.isDigit_of_mem_toDigits (by decide) (by decide) h

theorem toNat_of_isDigit {c : Char} (h : c.isDigit = true) : 48 ≤ c.toNat ∧ c.toNat ≤ 57 := by
  simpa [Char.isDigit, UInt32.le_iff_toNat_le] using h

theorem showCount_injective {m n : Nat} (h : showCount m = showCount n) : m = n := by
  have hm := Nat.ofDigitChars_toDigits (b := 10) (n := m) (by decide) (by decide)
  have hn := Nat.ofDigitChars_toDigits (b := 10) (n := n) (by decide) (by decide)
  rw [← hm, ← hn]
  exact congrArg (Nat.ofDigitChars 10 · 0) h

theorem le_ofDigitChars (cs : List Char) (value : Nat) : value ≤ Nat.ofDigitChars 10 cs value := by
  induction cs generalizing value with
  | nil => simp
  | cons c cs ih =>
      rw [Nat.ofDigitChars_cons]
      have := ih (10 * value + (c.toNat - '0'.toNat))
      omega

theorem readDigits_eq_ok {cs : List Char} {value : Nat} (hdigits : ∀ c ∈ cs, c.isDigit = true)
    (hlimit : Nat.ofDigitChars 10 cs value < countLimit) :
    readDigits value cs = .ok (Nat.ofDigitChars 10 cs value) := by
  induction cs generalizing value with
  | nil => simp [readDigits]
  | cons c cs ih =>
      rw [Nat.ofDigitChars_cons, Nat.mul_comm] at hlimit ⊢
      have hnext : value * 10 + (c.toNat - 0x30) < countLimit :=
        Nat.lt_of_le_of_lt (le_ofDigitChars cs _) hlimit
      rw [readDigits, if_pos (hdigits c (by simp))]
      dsimp only
      rw [if_pos hnext]
      exact ih (fun d hd => hdigits d (by simp [hd])) hlimit

theorem readCount_showCount {n : Nat} (h : n < countLimit) : readCount (showCount n) = .ok n := by
  have hvalue : Nat.ofDigitChars 10 (showCount n) 0 = n :=
    Nat.ofDigitChars_toDigits (by decide) (by decide)
  have hread : readDigits 0 (showCount n) = .ok n := by
    rw [readDigits_eq_ok (fun _ => isDigit_of_mem_showCount) (by rwa [hvalue]), hvalue]
  have hne : showCount n ≠ [] := Nat.toDigits_ne_nil
  have hplus : '+' ∉ showCount n := fun hmem => absurd (isDigit_of_mem_showCount hmem) (by decide)
  unfold readCount
  split
  · next h => exact absurd h hne
  · next h => simp [h] at hplus
  · next h => simp [h] at hplus
  · exact hread

end Text

namespace Workload

theorem decodeCount_encodeCount {n : Nat} (h : n < countLimit) :
    decodeCount (encodeCount n) = .ok n := by
  simp only [decodeCount, decodeText, encodeCount, Utf8.decode_encode, Except.mapError]
  change Except.mapError _ (Text.readCount (Text.showCount n)) = _
  rw [Text.readCount_showCount h]
  rfl

theorem encodeCount_injective {m n : Nat} (h : encodeCount m = encodeCount n) : m = n :=
  Text.showCount_injective (Utf8.encode_injective h)

theorem toNat_of_mem_encodeCount {n : Nat} {b : UInt8} (h : b ∈ encodeCount n) :
    48 ≤ b.toNat ∧ b.toNat ≤ 57 := by
  obtain ⟨c, hc, hb⟩ := List.mem_flatMap.mp h
  obtain ⟨hlow, hhigh⟩ := Text.toNat_of_isDigit (Text.isDigit_of_mem_showCount hc)
  rw [Utf8.encodeChar_ascii (by omega), List.mem_singleton] at hb
  rw [hb, Utf8.toNat_byteOfNat (by omega)]
  exact ⟨hlow, hhigh⟩

theorem notMem_encodeCount {b : UInt8} (n : Nat) (hb : b.toNat < 48) : b ∉ encodeCount n := by
  intro h
  have := (toNat_of_mem_encodeCount h).1
  omega

end Workload

end MapReduce
