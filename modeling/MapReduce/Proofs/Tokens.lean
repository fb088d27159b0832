import MapReduce.Proofs.Command
import MapReduce.Proofs.Record

/-!
# Texts line by line

Cutting bytes at newlines cuts no character in two, so bytes are a text if and only if each of their
lines is one, and the tokens of a text are those of its lines.
-/

namespace MapReduce

namespace Utf8

def IsText (bs : Bytes) : Prop :=
  ∃ cs, encode cs = bs

theorem isText_encode (cs : List Char) : IsText (encode cs) :=
  ⟨cs, rfl⟩

theorem isText_iff_decode {bs : Bytes} : IsText bs ↔ ∃ cs, decode bs = .ok cs := by
  simp only [IsText, decode_eq_ok_iff]

instance (bs : Bytes) : Decidable (IsText bs) :=
  match h : decode bs with
  | .ok cs => .isTrue (isText_iff_decode.mpr ⟨cs, h⟩)
  | .error _ => .isFalse fun htext => by
      obtain ⟨cs, hcs⟩ := isText_iff_decode.mp htext
      exact absurd (h.symm.trans hcs) (by simp)

theorem encode_newline : encodeChar '\n' = [Bytes.newline] := rfl

/-- A text is cut at an ASCII character into two texts. -/
theorem isText_append_ascii {c : Char} (hc : c.toNat < 0x80) {a b : Bytes}
    (ha : UInt8.ofNat c.toNat ∉ a) :
    IsText (a ++ UInt8.ofNat c.toNat :: b) ↔ IsText a ∧ IsText b := by
  constructor
  · rintro ⟨cs, h⟩
    have hmem : c ∈ cs := (byteOfNat_mem_encode_iff hc).mp (by simp [h])
    obtain ⟨first, rest, rfl, hfirst⟩ := List.eq_append_cons_of_mem hmem
    rw [encode_append, encode_cons, encodeChar_ascii hc, List.singleton_append] at h
    obtain ⟨rfl, rfl⟩ := cut_unique (fun h => hfirst ((byteOfNat_mem_encode_iff hc).mp h)) ha h
    exact ⟨isText_encode first, isText_encode rest⟩
  · rintro ⟨⟨first, rfl⟩, rest, rfl⟩
    exact ⟨first ++ c :: rest, by
      rw [encode_append, encode_cons, encodeChar_ascii hc, List.singleton_append]⟩

theorem isText_append_newline {a b : Bytes} (ha : Bytes.newline ∉ a) :
    IsText (a ++ Bytes.newline :: b) ↔ IsText a ∧ IsText b :=
  isText_append_ascii (c := '\n') (by decide) ha

theorem isText_append_space {a b : Bytes} (ha : Bytes.space ∉ a) :
    IsText (a ++ Bytes.space :: b) ↔ IsText a ∧ IsText b :=
  isText_append_ascii (c := ' ') (by decide) ha

theorem isText_iff_lines (bs : Bytes) : IsText bs ↔ ∀ l ∈ Bytes.lines bs, IsText l := by
  induction bs using Line.induction_on Bytes.newline with
  | hlast a ha =>
      by_cases hne : a = []
      · have hempty : IsText [] := isText_encode []
        simpa [hne] using hempty
      · simp [Bytes.lines_of_not_mem ha hne]
  | hline a b ha ih =>
      rw [isText_append_newline ha, ih, Bytes.lines_append_newline ha, List.forall_mem_cons]

theorem length_le_length_encode (cs : List Char) : cs.length ≤ (encode cs).length := by
  induction cs with
  | nil => simp
  | cons c cs ih =>
      have hc : 0 < (encodeChar c).length := by
        unfold encodeChar
        dsimp only
        split_ifs <;> simp
      rw [encode_cons, List.length_append, List.length_cons]
      omega

end Utf8

theorem Record.isText_fileOf {records : List Record} (hrecords : ∀ r ∈ records, r.Writable)
    (htext : ∀ r ∈ records, Utf8.IsText r.line) : Utf8.IsText (Record.fileOf records) := by
  rw [Utf8.isText_iff_lines, Record.lines_fileOf hrecords]
  intro l hl
  obtain ⟨r, hr, rfl⟩ := List.mem_map.mp hl
  exact htext r hr

namespace Text

theorem length_words_le (cs : List Char) : (words cs).length ≤ cs.length := by
  induction hn : cs.length using Nat.strongRecOn generalizing cs with
  | _ n ih =>
      subst hn
      rcases forall_or_exists_first isBlank cs with hcs | ⟨a, c, b, rfl, hc, ha⟩
      · by_cases hne : cs = []
        · simp [hne, words_nil]
        · rw [words_of_forall hne hcs, List.length_singleton]
          exact List.length_pos_iff.mpr hne
      · rw [words_append_blank hc, List.length_append, List.length_append, List.length_cons]
        have hfirst := ih a.length (by simp) a rfl
        have hrest := ih b.length (by simp; omega) b rfl
        omega

/-! What a text says line by line does not depend on how its lines are cut. -/

section Lines

variable {β : Type} (f : List Char → List β)

theorem splitWhere_line {a : List Char} (ha : '\n' ∉ a) : splitWhere (· == '\n') a = [a] := by
  apply splitWhere_of_forall
  intro c hc
  simpa using ne_of_mem_of_not_mem hc ha

theorem splitWhere_append_newline {a : List Char} (ha : '\n' ∉ a) (b : List Char) :
    splitWhere (· == '\n') (a ++ '\n' :: b) = a :: splitWhere (· == '\n') b := by
  rw [splitWhere_append_cons (by simp), splitWhere_line ha, List.singleton_append]

theorem flatMap_lines (hnil : f [] = []) (hreturn : ∀ cs, f (cs ++ ['\r']) = f cs)
    (text : List Char) :
    (lines text).flatMap f = (splitWhere (· == '\n') text).flatMap f := by
  induction text using Line.induction_on '\n' with
  | hlast a ha =>
      rw [splitWhere_line ha]
      by_cases hne : a = []
      · simp [hne, lines, hnil]
      · simp [lines, Line.split_of_not_mem ha hne, Line.withoutReturn]
  | hline a b ha ih =>
      have hfirst : f (Line.withoutReturn '\r' ⟨a, true⟩) = f a := by
        rcases List.eq_nil_or_concat a with rfl | ⟨cs, c, rfl⟩
        · rfl
        · rw [List.concat_eq_append, Line.withoutReturn_concat]
          split
          · next hc => rw [hc, hreturn]
          · rfl
      rw [splitWhere_append_newline ha, lines, Line.split_append_newline ha, List.map_cons,
        List.flatMap_cons, hfirst, List.flatMap_cons, ← ih]
      rfl

theorem flatMap_byteLines (hnil : f [] = []) (text : List Char) :
    (Bytes.lines (Utf8.encode text)).flatMap (fun l => f (Utf8.decodeLossy l))
      = (splitWhere (· == '\n') text).flatMap f := by
  induction text using Line.induction_on '\n' with
  | hlast a ha =>
      have hbytes : Bytes.newline ∉ Utf8.encode a := fun h => ha (Bytes.newline_mem_encode_iff.mp h)
      rw [splitWhere_line ha]
      by_cases hne : a = []
      · simp [hne, hnil, Utf8.encode]
      · have hencode : Utf8.encode a ≠ [] := fun h => hne (Utf8.encode_injective h)
        simp [Bytes.lines_of_not_mem hbytes hencode, Utf8.decodeLossy_encode]
  | hline a b ha ih =>
      have hbytes : Bytes.newline ∉ Utf8.encode a := fun h => ha (Bytes.newline_mem_encode_iff.mp h)
      rw [splitWhere_append_newline ha, Utf8.encode_append, Utf8.encode_cons, Utf8.encode_newline,
        List.singleton_append, Bytes.lines_append_newline hbytes, List.flatMap_cons, ih,
        Utf8.decodeLossy_encode, List.flatMap_cons]

end Lines

end Text

namespace WordCount

def tokens (text : List Char) : List Bytes :=
  (Text.words text).map Utf8.encode

/-- A token as it can stand in a record. -/
structure IsToken (w : Bytes) : Prop where
  isText : Utf8.IsText w
  ne_nil : w ≠ []
  space_notMem : Bytes.space ∉ w
  newline_notMem : Bytes.newline ∉ w

theorem isToken_of_mem_tokens {text : List Char} {w : Bytes} (h : w ∈ tokens text) : IsToken w := by
  obtain ⟨word, hword, rfl⟩ := List.mem_map.mp h
  have hblank : ∀ {c : Char}, Text.isBlank c = true → c ∉ word := by
    intro c hc hmem
    simp [Text.isBlank_of_mem_words hword hmem] at hc
  refine ⟨Utf8.isText_encode word, ?_, ?_, ?_⟩
  · intro hnil
    exact Text.ne_nil_of_mem_words hword (Utf8.encode_injective hnil)
  · intro hmem
    exact hblank (by decide) (Bytes.space_mem_encode_iff.mp hmem)
  · intro hmem
    exact hblank (by decide) (Bytes.newline_mem_encode_iff.mp hmem)

theorem length_tokens_le (text : List Char) : (tokens text).length ≤ (Utf8.encode text).length := by
  calc (tokens text).length = (Text.words text).length := List.length_map _
    _ ≤ text.length := Text.length_words_le text
    _ ≤ (Utf8.encode text).length := Utf8.length_le_length_encode text

def tokensOfLine (l : Bytes) : List Bytes :=
  tokens (Utf8.decodeLossy l)

theorem tokens_flatMap_pieces (text : List Char) :
    (splitWhere (· == '\n') text).flatMap tokens = tokens text := by
  induction text using Line.induction_on '\n' with
  | hlast a ha => rw [Text.splitWhere_line ha, List.flatMap_singleton]
  | hline a b ha ih =>
      rw [Text.splitWhere_append_newline ha, List.flatMap_cons, ih, tokens, tokens, tokens,
        Text.words_append_newline, List.map_append]

/-- The tokens of a text are those of its lines. -/
theorem tokens_eq (text : List Char) :
    tokens text = (Bytes.lines (Utf8.encode text)).flatMap tokensOfLine :=
  calc tokens text = (splitWhere (· == '\n') text).flatMap tokens := (tokens_flatMap_pieces text).symm
    _ = (Bytes.lines (Utf8.encode text)).flatMap tokensOfLine :=
        (Text.flatMap_byteLines tokens rfl text).symm

end WordCount

end MapReduce
