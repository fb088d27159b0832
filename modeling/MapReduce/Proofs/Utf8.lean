import Mathlib.Data.List.Basic
import MapReduce.Proofs.Split
import MapReduce.Text.Utf8

/-!
# UTF-8

Strict decoding undoes encoding, and only encoded texts decode. Both directions rest on one relation:
the bytes that complete a character whose first byte has been read.
-/

namespace MapReduce.Utf8

/-! ### Characters byte by byte -/

theorem toNat_charOfNat {n : Nat} (h : n.isValidChar) : (Char.ofNat n).toNat = n := by
  rw [Char.ofNat, dif_pos h]
  rfl

theorem isValidChar_toNat (c : Char) : c.toNat.isValidChar :=
  c.valid

theorem toNat_byteOfNat {n : Nat} (h : n < 256) : (UInt8.ofNat n).toNat = n := by
  simp [Nat.mod_eq_of_lt h]

theorem byteOfNat_eq {b : UInt8} {n : Nat} (h : n = b.toNat) : UInt8.ofNat n = b := by
  rw [h, UInt8.ofNat_toNat]

namespace Partial

def next (p : Partial) (b : UInt8) : Partial :=
  ⟨b :: p.read, p.valueWith b, p.after - 1, 0x80, 0xBF⟩

/-- These bytes complete the character. -/
inductive Completes : Partial → Bytes → Char → Prop where
  | last {p : Partial} {b : UInt8} (haccepts : p.accepts b = true) (hafter : p.after = 0) :
      Completes p [b] (Char.ofNat (p.valueWith b))
  | more {p : Partial} {b : UInt8} {bs : Bytes} {c : Char} (haccepts : p.accepts b = true)
      (hafter : p.after ≠ 0) (rest : Completes (p.next b) bs c) : Completes p (b :: bs) c

theorem accepts_iff {p : Partial} {b : UInt8} :
    p.accepts b = true ↔ p.low ≤ b.toNat ∧ b.toNat ≤ p.high := by
  simp [accepts]

end Partial

/-! ### Cutting into pieces -/

theorem scan_append (p : Option Partial) (done : List Piece) (bs : Bytes) :
    scan p done bs = done.reverse ++ scan p [] bs := by
  induction bs generalizing p done with
  | nil => cases p <;> simp [scan]
  | cons b bs ih =>
      cases p with
      | none =>
          rw [scan, scan]
          split
          · rw [ih, ih _ [_]]; simp
          · split
            · exact ih _ _
            · rw [ih, ih _ [_]]; simp
      | some p =>
          rw [scan, scan]
          split
          · split
            · rw [ih, ih _ [_]]; simp
            · exact ih _ _
          · dsimp only
            split
            · rw [ih, ih _ [_, _]]; simp
            · split
              · rw [ih, ih _ [_]]; simp
              · rw [ih, ih _ [_, _]]; simp

theorem scan_of_completes {p : Partial} {conts : Bytes} {c : Char} (h : p.Completes conts c)
    (done : List Piece) (rest : Bytes) :
    scan (some p) done (conts ++ rest) = scan none (.char c :: done) rest := by
  induction h with
  | last haccepts hafter => simp [scan, haccepts, hafter]
  | more haccepts hafter _ ih =>
      rw [List.cons_append, scan, if_pos haccepts, if_neg hafter]
      exact ih

theorem scan_ascii {b : UInt8} (hb : b.toNat < 0x80) (done : List Piece) (rest : Bytes) :
    scan none done (b :: rest) = scan none (.char (Char.ofNat b.toNat) :: done) rest := by
  rw [scan, if_pos hb]

theorem scan_begin {b : UInt8} {p : Partial} (hb : ¬ b.toNat < 0x80)
    (hp : Partial.begin b = some p) (done : List Piece) (rest : Bytes) :
    scan none done (b :: rest) = scan (some p) done rest := by
  rw [scan, if_neg hb, hp]

/-! ### Characters of two, three and four bytes -/

def IsContinuation (b : UInt8) : Prop :=
  0x80 ≤ b.toNat ∧ b.toNat ≤ 0xBF

namespace Partial

variable {p : Partial} {conts : Bytes} {c : Char}

theorem completes_iff_of_after_zero (hafter : p.after = 0) :
    p.Completes conts c ↔ ∃ b, conts = [b] ∧ p.accepts b = true ∧ c = Char.ofNat (p.valueWith b) := by
  constructor
  · rintro (⟨haccepts, -⟩ | ⟨-, hmore, -⟩)
    · exact ⟨_, rfl, haccepts, rfl⟩
    · exact absurd hafter hmore
  · rintro ⟨b, rfl, haccepts, hc⟩
    exact hc ▸ .last haccepts hafter

theorem completes_iff_of_after_succ {n : Nat} (hafter : p.after = n + 1) :
    p.Completes conts c ↔ ∃ b bs, conts = b :: bs ∧ p.accepts b = true
      ∧ (p.next b).Completes bs c := by
  constructor
  · rintro (⟨-, hzero⟩ | ⟨haccepts, -, hrest⟩)
    · omega
    · exact ⟨_, _, rfl, haccepts, hrest⟩
  · rintro ⟨b, bs, rfl, haccepts, hrest⟩
    exact .more haccepts (by omega) hrest

theorem accepts_next {b b' : UInt8} : (p.next b).accepts b' = true ↔ IsContinuation b' :=
  accepts_iff

theorem completes_iff_of_after_one (hafter : p.after = 1) :
    p.Completes conts c ↔ ∃ b₁ b₂, conts = [b₁, b₂] ∧ p.accepts b₁ = true ∧ IsContinuation b₂
      ∧ c = Char.ofNat (p.valueWith b₁ * 0x40 + (b₂.toNat - 0x80)) := by
  rw [completes_iff_of_after_succ hafter]
  constructor
  · rintro ⟨b₁, bs, rfl, h₁, hrest⟩
    have hzero : (p.next b₁).after = 0 := by simp [next, hafter]
    obtain ⟨b₂, rfl, h₂, hc⟩ := (completes_iff_of_after_zero hzero).mp hrest
    exact ⟨b₁, b₂, rfl, h₁, accepts_next.mp h₂, hc⟩
  · rintro ⟨b₁, b₂, rfl, h₁, h₂, hc⟩
    have hzero : (p.next b₁).after = 0 := by simp [next, hafter]
    exact ⟨b₁, [b₂], rfl, h₁,
      (completes_iff_of_after_zero hzero).mpr ⟨b₂, rfl, accepts_next.mpr h₂, hc⟩⟩

theorem completes_iff_of_after_two (hafter : p.after = 2) :
    p.Completes conts c ↔ ∃ b₁ b₂ b₃, conts = [b₁, b₂, b₃] ∧ p.accepts b₁ = true
      ∧ IsContinuation b₂ ∧ IsContinuation b₃
      ∧ c = Char.ofNat ((p.valueWith b₁ * 0x40 + (b₂.toNat - 0x80)) * 0x40 + (b₃.toNat - 0x80)) := by
  rw [completes_iff_of_after_succ hafter]
  constructor
  · rintro ⟨b₁, bs, rfl, h₁, hrest⟩
    have hone : (p.next b₁).after = 1 := by simp [next, hafter]
    obtain ⟨b₂, b₃, rfl, h₂, h₃, hc⟩ := (completes_iff_of_after_one hone).mp hrest
    exact ⟨b₁, b₂, b₃, rfl, h₁, accepts_next.mp h₂, h₃, hc⟩
  · rintro ⟨b₁, b₂, b₃, rfl, h₁, h₂, h₃, hc⟩
    have hone : (p.next b₁).after = 1 := by simp [next, hafter]
    exact ⟨b₁, [b₂, b₃], rfl, h₁,
      (completes_iff_of_after_one hone).mpr ⟨b₂, b₃, rfl, accepts_next.mpr h₂, h₃, hc⟩⟩

end Partial

theorem encodeChar_two {b b₁ : UInt8} {n : Nat} (h₁ : IsContinuation b₁)
    (hn : n = (b.toNat - 0xC0) * 0x40 + (b₁.toNat - 0x80)) (hlow : 0xC2 ≤ b.toNat)
    (hhigh : b.toNat < 0xE0) : encodeChar (Char.ofNat n) = [b, b₁] := by
  obtain ⟨hlow₁, hhigh₁⟩ := h₁
  have hvalid : n.isValidChar := Or.inl (by omega)
  rw [encodeChar, toNat_charOfNat hvalid, if_neg (by omega), if_pos (by omega),
    byteOfNat_eq (b := b) (by omega), byteOfNat_eq (b := b₁) (by omega)]

theorem encodeChar_three {b b₁ b₂ : UInt8} {n : Nat} (h₁ : IsContinuation b₁)
    (h₂ : IsContinuation b₂)
    (hn : n = ((b.toNat - 0xE0) * 0x40 + (b₁.toNat - 0x80)) * 0x40 + (b₂.toNat - 0x80))
    (hlow : 0xE0 ≤ b.toNat) (hhigh : b.toNat < 0xF0) (hlong : 0x800 ≤ n)
    (hvalid : n < 0xD800 ∨ 0xDFFF < n) : encodeChar (Char.ofNat n) = [b, b₁, b₂] := by
  obtain ⟨hlow₁, hhigh₁⟩ := h₁
  obtain ⟨hlow₂, hhigh₂⟩ := h₂
  have hchar : n.isValidChar := hvalid.imp id fun h => ⟨h, by omega⟩
  rw [encodeChar, toNat_charOfNat hchar, if_neg (by omega), if_neg (by omega), if_pos (by omega),
    byteOfNat_eq (b := b) (by omega), byteOfNat_eq (b := b₁) (by omega),
    byteOfNat_eq (b := b₂) (by omega)]

theorem encodeChar_four {b b₁ b₂ b₃ : UInt8} {n : Nat} (h₁ : IsContinuation b₁)
    (h₂ : IsContinuation b₂) (h₃ : IsContinuation b₃)
    (hn : n = (((b.toNat - 0xF0) * 0x40 + (b₁.toNat - 0x80)) * 0x40 + (b₂.toNat - 0x80)) * 0x40
      + (b₃.toNat - 0x80))
    (hlow : 0xF0 ≤ b.toNat) (hlong : 0x10000 ≤ n) (hhigh : n < 0x110000) :
    encodeChar (Char.ofNat n) = [b, b₁, b₂, b₃] := by
  obtain ⟨hlow₁, hhigh₁⟩ := h₁
  obtain ⟨hlow₂, hhigh₂⟩ := h₂
  obtain ⟨hlow₃, hhigh₃⟩ := h₃
  have hchar : n.isValidChar := Or.inr ⟨by omega, hhigh⟩
  rw [encodeChar, toNat_charOfNat hchar, if_neg (by omega), if_neg (by omega), if_neg (by omega),
    byteOfNat_eq (b := b) (by omega), byteOfNat_eq (b := b₁) (by omega),
    byteOfNat_eq (b := b₂) (by omega), byteOfNat_eq (b := b₃) (by omega)]

theorem encodeChar_of_completes {b : UInt8} {p : Partial} {conts : Bytes} {c : Char}
    (hp : Partial.begin b = some p) (h : p.Completes conts c) : encodeChar c = b :: conts := by
  have htwo : p.after = 0 → p.low = 0x80 → p.high = 0xBF → p.value = b.toNat - 0xC0 →
      0xC2 ≤ b.toNat → b.toNat < 0xE0 → encodeChar c = b :: conts := by
    intro hafter hplow hphigh hvalue hlow hhigh
    obtain ⟨b₁, rfl, haccepts, hc⟩ := (Partial.completes_iff_of_after_zero hafter).mp h
    obtain ⟨hlow₁, hhigh₁⟩ := Partial.accepts_iff.mp haccepts
    have hn : p.valueWith b₁ = (b.toNat - 0xC0) * 0x40 + (b₁.toNat - 0x80) := by
      unfold Partial.valueWith
      omega
    rw [hc]
    exact encodeChar_two ⟨by omega, by omega⟩ hn hlow hhigh
  have hthree : p.after = 1 → 0x80 ≤ p.low → p.high ≤ 0xBF → p.value = b.toNat - 0xE0 →
      0xE0 ≤ b.toNat → b.toNat < 0xF0 → 0x20 ≤ p.value * 0x40 + (p.low - 0x80) →
      (p.value * 0x40 + (p.high - 0x80) < 0x360 ∨ 0x37F < p.value * 0x40 + (p.low - 0x80)) →
      encodeChar c = b :: conts := by
    intro hafter hplow hphigh hvalue hlow hhigh hlong hvalid
    obtain ⟨b₁, b₂, rfl, haccepts, h₂, hc⟩ := (Partial.completes_iff_of_after_one hafter).mp h
    obtain ⟨hlow₁, hhigh₁⟩ := Partial.accepts_iff.mp haccepts
    have hcont := h₂
    obtain ⟨hlow₂, hhigh₂⟩ := h₂
    have hn : p.valueWith b₁ = (b.toNat - 0xE0) * 0x40 + (b₁.toNat - 0x80) := by
      unfold Partial.valueWith
      omega
    rw [hc]
    exact encodeChar_three ⟨by omega, by omega⟩ hcont (by omega) hlow hhigh (by omega) (by omega)
  have hfour : p.after = 2 → 0x80 ≤ p.low → p.high ≤ 0xBF → p.value = b.toNat - 0xF0 →
      0xF0 ≤ b.toNat → 0x10 ≤ p.value * 0x40 + (p.low - 0x80) →
      p.value * 0x40 + (p.high - 0x80) < 0x110 → encodeChar c = b :: conts := by
    intro hafter hplow hphigh hvalue hlow hlong hhigh
    obtain ⟨b₁, b₂, b₃, rfl, haccepts, h₂, h₃, hc⟩ :=
      (Partial.completes_iff_of_after_two hafter).mp h
    obtain ⟨hlow₁, hhigh₁⟩ := Partial.accepts_iff.mp haccepts
    have hcont₂ := h₂
    have hcont₃ := h₃
    obtain ⟨hlow₂, hhigh₂⟩ := h₂
    obtain ⟨hlow₃, hhigh₃⟩ := h₃
    have hn : p.valueWith b₁ = (b.toNat - 0xF0) * 0x40 + (b₁.toNat - 0x80) := by
      unfold Partial.valueWith
      omega
    rw [hc]
    exact encodeChar_four ⟨by omega, by omega⟩ hcont₂ hcont₃ (by omega) hlow (by omega) (by omega)
  unfold Partial.begin at hp
  dsimp only at hp
  split_ifs at hp <;> obtain rfl := Option.some.inj hp
  · exact htwo rfl rfl rfl rfl (by omega) (by omega)
  all_goals dsimp only at hthree hfour
  · exact hthree rfl (by omega) (by omega) (by omega) (by omega) (by omega) (by omega) (by omega)
  · exact hthree rfl (by omega) (by omega) (by omega) (by omega) (by omega) (by omega) (by omega)
  · exact hthree rfl (by omega) (by omega) (by omega) (by omega) (by omega) (by omega) (by omega)
  · exact hfour rfl (by omega) (by omega) (by omega) (by omega) (by omega) (by omega)
  · exact hfour rfl (by omega) (by omega) (by omega) (by omega) (by omega) (by omega)
  · exact hfour rfl (by omega) (by omega) (by omega) (by omega) (by omega) (by omega)

theorem charOfNat_eq {c : Char} {n : Nat} (h : c.toNat = n) : c = Char.ofNat n := by
  rw [← h, Char.ofNat_toNat]

theorem exists_begin_two {b b₁ : UInt8} {c : Char} (h₁ : IsContinuation b₁)
    (hlow : 0xC2 ≤ b.toNat) (hhigh : b.toNat < 0xE0)
    (hc : c.toNat = (b.toNat - 0xC0) * 0x40 + (b₁.toNat - 0x80)) :
    ∃ p, Partial.begin b = some p ∧ p.Completes [b₁] c := by
  refine ⟨⟨[b], b.toNat - 0xC0, 0, 0x80, 0xBF⟩, ?_, ?_⟩
  · rw [Partial.begin, if_neg (by omega), if_pos (by omega)]
  · exact (Partial.completes_iff_of_after_zero rfl).mpr
      ⟨b₁, rfl, Partial.accepts_iff.mpr h₁, charOfNat_eq hc⟩

theorem exists_begin_three {b b₁ b₂ : UInt8} {c : Char} (h₁ : IsContinuation b₁)
    (h₂ : IsContinuation b₂) (hlow : 0xE0 ≤ b.toNat) (hhigh : b.toNat < 0xF0)
    (hc : c.toNat = ((b.toNat - 0xE0) * 0x40 + (b₁.toNat - 0x80)) * 0x40 + (b₂.toNat - 0x80))
    (hlong : 0x800 ≤ c.toNat) : ∃ p, Partial.begin b = some p ∧ p.Completes [b₁, b₂] c := by
  have hvalid := isValidChar_toNat c
  obtain ⟨hlow₁, hhigh₁⟩ := h₁
  have hcont := h₂
  obtain ⟨hlow₂, hhigh₂⟩ := h₂
  have hcompletes : ∀ low high, low ≤ b₁.toNat → b₁.toNat ≤ high →
      Partial.Completes ⟨[b], b.toNat - 0xE0, 1, low, high⟩ [b₁, b₂] c := by
    intro low high hl hh
    exact (Partial.completes_iff_of_after_one rfl).mpr
        ⟨b₁, b₂, rfl, Partial.accepts_iff.mpr ⟨hl, hh⟩, hcont, charOfNat_eq hc⟩
  by_cases hE0 : b.toNat = 0xE0
  · refine ⟨_, ?_, hcompletes 0xA0 0xBF (by omega) hhigh₁⟩
    rw [Partial.begin, if_neg (by omega), if_neg (by omega), if_pos hE0, hE0]
  · by_cases hED : b.toNat = 0xED
    · refine ⟨_, ?_, hcompletes 0x80 0x9F hlow₁ (by omega)⟩
      rw [Partial.begin, if_neg (by omega), if_neg (by omega), if_neg hE0, if_pos hED, hED]
    · refine ⟨_, ?_, hcompletes 0x80 0xBF hlow₁ hhigh₁⟩
      rw [Partial.begin, if_neg (by omega), if_neg (by omega), if_neg hE0, if_neg hED,
        if_pos (by omega)]

theorem exists_begin_four {b b₁ b₂ b₃ : UInt8} {c : Char} (h₁ : IsContinuation b₁)
    (h₂ : IsContinuation b₂) (h₃ : IsContinuation b₃) (hlow : 0xF0 ≤ b.toNat)
    (hc : c.toNat = (((b.toNat - 0xF0) * 0x40 + (b₁.toNat - 0x80)) * 0x40 + (b₂.toNat - 0x80)) * 0x40
      + (b₃.toNat - 0x80))
    (hlong : 0x10000 ≤ c.toNat) : ∃ p, Partial.begin b = some p ∧ p.Completes [b₁, b₂, b₃] c := by
  have hvalid := isValidChar_toNat c
  obtain ⟨hlow₁, hhigh₁⟩ := h₁
  have hcont₂ := h₂
  have hcont₃ := h₃
  obtain ⟨hlow₂, hhigh₂⟩ := h₂
  obtain ⟨hlow₃, hhigh₃⟩ := h₃
  have hcompletes : ∀ low high, low ≤ b₁.toNat → b₁.toNat ≤ high →
      Partial.Completes ⟨[b], b.toNat - 0xF0, 2, low, high⟩ [b₁, b₂, b₃] c := by
    intro low high hl hh
    exact (Partial.completes_iff_of_after_two rfl).mpr
        ⟨b₁, b₂, b₃, rfl, Partial.accepts_iff.mpr ⟨hl, hh⟩, hcont₂, hcont₃, charOfNat_eq hc⟩
  by_cases hF0 : b.toNat = 0xF0
  · refine ⟨_, ?_, hcompletes 0x90 0xBF (by omega) hhigh₁⟩
    rw [Partial.begin, if_neg (by omega), if_neg (by omega), if_neg (by omega), if_neg (by omega),
      if_neg (by omega), if_pos hF0, hF0]
  · by_cases hF4 : b.toNat < 0xF4
    · refine ⟨_, ?_, hcompletes 0x80 0xBF hlow₁ hhigh₁⟩
      rw [Partial.begin, if_neg (by omega), if_neg (by omega), if_neg (by omega),
        if_neg (by omega), if_neg (by omega), if_neg hF0, if_pos hF4]
    · have hvalue : b.toNat = 0xF4 := by omega
      refine ⟨_, ?_, hcompletes 0x80 0x8F hlow₁ (by omega)⟩
      rw [Partial.begin, if_neg (by omega), if_neg (by omega), if_neg (by omega),
        if_neg (by omega), if_neg (by omega), if_neg hF0, if_neg hF4, if_pos hvalue, hvalue]

theorem exists_completes {c : Char} (hc : ¬ c.toNat < 0x80) :
    ∃ b p conts, encodeChar c = b :: conts ∧ ¬ b.toNat < 0x80 ∧ Partial.begin b = some p
      ∧ p.Completes conts c := by
  have hvalid := isValidChar_toNat c
  have hcontinuation : ∀ n, n < 0x40 → (UInt8.ofNat (0x80 + n)).toNat = 0x80 + n :=
    fun n hn => toNat_byteOfNat (by omega)
  by_cases htwo : c.toNat < 0x800
  · have hb := toNat_byteOfNat (n := 0xC0 + c.toNat / 0x40) (by omega)
    have hb₁ := hcontinuation (c.toNat % 0x40) (by omega)
    have hencode : encodeChar c
        = [UInt8.ofNat (0xC0 + c.toNat / 0x40), UInt8.ofNat (0x80 + c.toNat % 0x40)] := by
      rw [encodeChar, if_neg hc, if_pos htwo]
    generalize UInt8.ofNat (0xC0 + c.toNat / 0x40) = b at hencode hb
    generalize UInt8.ofNat (0x80 + c.toNat % 0x40) = b₁ at hencode hb₁
    obtain ⟨p, hp, hcompletes⟩ := exists_begin_two (b := b) (c := c)
      (show IsContinuation b₁ from ⟨by omega, by omega⟩) (by omega) (by omega) (by omega)
    exact ⟨b, p, [b₁], hencode, by omega, hp, hcompletes⟩
  · by_cases hthree : c.toNat < 0x10000
    · have hb := toNat_byteOfNat (n := 0xE0 + c.toNat / 0x1000) (by omega)
      have hb₁ := hcontinuation (c.toNat / 0x40 % 0x40) (by omega)
      have hb₂ := hcontinuation (c.toNat % 0x40) (by omega)
      have hencode : encodeChar c = [UInt8.ofNat (0xE0 + c.toNat / 0x1000),
          UInt8.ofNat (0x80 + c.toNat / 0x40 % 0x40), UInt8.ofNat (0x80 + c.toNat % 0x40)] := by
        rw [encodeChar, if_neg hc, if_neg htwo, if_pos hthree]
      generalize UInt8.ofNat (0xE0 + c.toNat / 0x1000) = b at hencode hb
      generalize UInt8.ofNat (0x80 + c.toNat / 0x40 % 0x40) = b₁ at hencode hb₁
      generalize UInt8.ofNat (0x80 + c.toNat % 0x40) = b₂ at hencode hb₂
      obtain ⟨p, hp, hcompletes⟩ := exists_begin_three (b := b) (c := c)
        (show IsContinuation b₁ from ⟨by omega, by omega⟩)
        (show IsContinuation b₂ from ⟨by omega, by omega⟩) (by omega) (by omega) (by omega)
        (by omega)
      exact ⟨b, p, [b₁, b₂], hencode, by omega, hp, hcompletes⟩
    · have hb := toNat_byteOfNat (n := 0xF0 + c.toNat / 0x40000) (by omega)
      have hb₁ := hcontinuation (c.toNat / 0x1000 % 0x40) (by omega)
      have hb₂ := hcontinuation (c.toNat / 0x40 % 0x40) (by omega)
      have hb₃ := hcontinuation (c.toNat % 0x40) (by omega)
      have hencode : encodeChar c = [UInt8.ofNat (0xF0 + c.toNat / 0x40000),
          UInt8.ofNat (0x80 + c.toNat / 0x1000 % 0x40), UInt8.ofNat (0x80 + c.toNat / 0x40 % 0x40),
          UInt8.ofNat (0x80 + c.toNat % 0x40)] := by
        rw [encodeChar, if_neg hc, if_neg htwo, if_neg hthree]
      generalize UInt8.ofNat (0xF0 + c.toNat / 0x40000) = b at hencode hb
      generalize UInt8.ofNat (0x80 + c.toNat / 0x1000 % 0x40) = b₁ at hencode hb₁
      generalize UInt8.ofNat (0x80 + c.toNat / 0x40 % 0x40) = b₂ at hencode hb₂
      generalize UInt8.ofNat (0x80 + c.toNat % 0x40) = b₃ at hencode hb₃
      obtain ⟨p, hp, hcompletes⟩ := exists_begin_four (b := b) (c := c)
        (show IsContinuation b₁ from ⟨by omega, by omega⟩)
        (show IsContinuation b₂ from ⟨by omega, by omega⟩)
        (show IsContinuation b₃ from ⟨by omega, by omega⟩) (by omega) (by omega) (by omega)
      exact ⟨b, p, [b₁, b₂, b₃], hencode, by omega, hp, hcompletes⟩

theorem encodeChar_ascii {c : Char} (hc : c.toNat < 0x80) :
    encodeChar c = [UInt8.ofNat c.toNat] := by
  rw [encodeChar, if_pos hc]

/-! ### Round trips -/

theorem scan_encodeChar (c : Char) (done : List Piece) (rest : Bytes) :
    scan none done (encodeChar c ++ rest) = scan none (.char c :: done) rest := by
  by_cases hc : c.toNat < 0x80
  · have hb := toNat_byteOfNat (n := c.toNat) (by omega)
    rw [encodeChar_ascii hc, List.singleton_append, scan_ascii (by omega), hb, Char.ofNat_toNat]
  · obtain ⟨b, p, conts, hencode, hb, hp, hcompletes⟩ := exists_completes hc
    rw [hencode, List.cons_append, scan_begin hb hp, scan_of_completes hcompletes]

theorem pieces_encode (cs : List Char) : pieces (encode cs) = cs.map .char := by
  induction cs with
  | nil => rfl
  | cons c cs ih =>
      rw [pieces, encode, List.flatMap_cons, scan_encodeChar, scan_append, ← encode, ← pieces, ih]
      rfl

theorem readPieces_map_char (index : Nat) (read cs : List Char) :
    readPieces index read (cs.map .char) = .ok (read.reverse ++ cs) := by
  induction cs generalizing index read with
  | nil => simp [readPieces]
  | cons c cs ih => simp [readPieces, ih]

theorem eq_map_char_of_readPieces {index : Nat} {read cs : List Char} {ps : List Piece}
    (h : readPieces index read ps = .ok cs) : ∃ more, ps = more.map .char ∧ cs = read.reverse ++ more := by
  induction ps generalizing index read with
  | nil => exact ⟨[], rfl, by simpa [readPieces] using h.symm⟩
  | cons p ps ih =>
      cases p with
      | char c =>
          obtain ⟨more, rfl, hcs⟩ := ih h
          exact ⟨c :: more, rfl, by simpa using hcs⟩
      | malformed run => simp [readPieces] at h
      | truncated run => simp [readPieces] at h

theorem decode_encode (cs : List Char) : decode (encode cs) = .ok cs := by
  rw [decode, pieces_encode, readPieces_map_char]
  rfl

theorem decodeLossy_encode (cs : List Char) : decodeLossy (encode cs) = cs := by
  rw [decodeLossy, pieces_encode, List.map_map]
  exact List.map_id cs

theorem encode_injective {cs cs' : List Char} (h : encode cs = encode cs') : cs = cs' := by
  have := decode_encode cs
  rw [h, decode_encode] at this
  exact (Except.ok.inj this).symm

theorem exists_completes_of_scan {p : Partial} {bs : Bytes} {cs : List Char}
    (h : scan (some p) [] bs = cs.map .char) :
    ∃ conts rest c cs', bs = conts ++ rest ∧ p.Completes conts c ∧ cs = c :: cs'
      ∧ scan none [] rest = cs'.map .char := by
  induction bs generalizing p with
  | nil => cases cs <;> simp [scan] at h
  | cons b bs ih =>
      rw [scan] at h
      split at h
      · next haccepts =>
          split at h
          · next hafter =>
              rw [scan_append] at h
              obtain ⟨c, cs', rfl, hc, hrest⟩ := List.map_eq_cons_iff.mp h.symm
              refine ⟨[b], bs, c, cs', rfl, ?_, rfl, hrest.symm⟩
              rw [Piece.char.inj hc]
              exact .last haccepts hafter
          · next hafter =>
              obtain ⟨conts, rest, c, cs', rfl, hcompletes, rfl, hrest⟩ := ih h
              exact ⟨b :: conts, rest, c, cs', rfl, .more haccepts hafter hcompletes, rfl, hrest⟩
      · exfalso
        have hmalformed : Piece.malformed p.read.reverse ∈ cs.map Piece.char := by
          rw [← h]
          dsimp only
          split
          · rw [scan_append]; simp
          · split
            · rw [scan_append]; simp
            · rw [scan_append]; simp
        simp at hmalformed

theorem encode_of_scan {bs : Bytes} {cs : List Char} (h : scan none [] bs = cs.map .char) :
    encode cs = bs := by
  induction hn : bs.length using Nat.strongRecOn generalizing bs cs with
  | _ n ih =>
      cases bs with
      | nil =>
          obtain rfl : cs = [] := by cases cs <;> simp_all [scan]
          rfl
      | cons b bs =>
          by_cases hb : b.toNat < 0x80
          · rw [scan_ascii hb, scan_append] at h
            obtain ⟨c, cs', rfl, hc, hrest⟩ := List.map_eq_cons_iff.mp h.symm
            obtain rfl := Piece.char.inj hc
            have hchar : (Char.ofNat b.toNat).toNat = b.toNat := toNat_charOfNat (Or.inl (by omega))
            rw [encode, List.flatMap_cons, encodeChar_ascii (by omega), hchar, UInt8.ofNat_toNat,
              ← encode, ih bs.length (by simp [← hn]) hrest.symm rfl]
            rfl
          · cases hp : Partial.begin b with
            | none =>
                rw [scan, if_neg hb, hp, scan_append] at h
                have hmalformed : Piece.malformed [b] ∈ cs.map Piece.char := by rw [← h]; simp
                simp at hmalformed
            | some p =>
                rw [scan_begin hb hp] at h
                obtain ⟨conts, rest, c, cs', rfl, hcompletes, rfl, hrest⟩ :=
                  exists_completes_of_scan h
                have hless : rest.length < n := by
                  simp only [← hn, List.length_cons, List.length_append]
                  omega
                rw [encode, List.flatMap_cons, encodeChar_of_completes hp hcompletes, ← encode,
                  ih rest.length hless hrest rfl]
                rfl

/-- What decodes is the encoding of what it decodes to. -/
theorem encode_of_decode {bs : Bytes} {cs : List Char} (h : decode bs = .ok cs) :
    encode cs = bs := by
  obtain ⟨more, hpieces, rfl⟩ := eq_map_char_of_readPieces h
  exact encode_of_scan hpieces

theorem decode_eq_ok_iff {bs : Bytes} {cs : List Char} : decode bs = .ok cs ↔ encode cs = bs :=
  ⟨encode_of_decode, fun h => h ▸ decode_encode cs⟩

/-! ### Bytes below `0x80` -/

theorem le_toNat_of_mem_encodeChar {c : Char} (hc : ¬ c.toNat < 0x80) {b : UInt8}
    (hb : b ∈ encodeChar c) : 0x80 ≤ b.toNat := by
  have hvalid := isValidChar_toNat c
  have hbyte : ∀ n, 0x80 ≤ n → n < 0x100 → b = UInt8.ofNat n → 0x80 ≤ b.toNat := by
    intro n hlow hhigh h
    rwa [h, toNat_byteOfNat hhigh]
  rw [encodeChar] at hb
  simp only [Nat.isValidChar] at hvalid
  split at hb
  · contradiction
  · split at hb
    · rcases List.mem_pair.mp hb with h | h <;> exact hbyte _ (by omega) (by omega) h
    · split at hb
      · simp only [List.mem_cons, List.not_mem_nil, or_false] at hb
        rcases hb with h | h | h <;> exact hbyte _ (by omega) (by omega) h
      · simp only [List.mem_cons, List.not_mem_nil, or_false] at hb
        rcases hb with h | h | h | h <;> exact hbyte _ (by omega) (by omega) h

/-- A byte below `0x80` stands for its character wherever it is. -/
theorem byteOfNat_mem_encode_iff {c : Char} (hc : c.toNat < 0x80) {cs : List Char} :
    UInt8.ofNat c.toNat ∈ encode cs ↔ c ∈ cs := by
  have hbyte := toNat_byteOfNat (n := c.toNat) (by omega)
  refine ⟨?_, fun h => List.mem_flatMap.mpr ⟨c, h, by simp [encodeChar_ascii hc]⟩⟩
  intro h
  obtain ⟨c', hmem, hb⟩ := List.mem_flatMap.mp h
  by_cases hc' : c'.toNat < 0x80
  · rw [encodeChar_ascii hc', List.mem_singleton] at hb
    have hnat : c.toNat = c'.toNat := by
      rw [← hbyte, hb, toNat_byteOfNat (by omega)]
    rwa [charOfNat_eq hnat, Char.ofNat_toNat]
  · have := le_toNat_of_mem_encodeChar hc' hb
    omega

theorem encode_append (a b : List Char) : encode (a ++ b) = encode a ++ encode b :=
  List.flatMap_append

theorem encode_cons (c : Char) (cs : List Char) : encode (c :: cs) = encodeChar c ++ encode cs :=
  List.flatMap_cons

end MapReduce.Utf8
