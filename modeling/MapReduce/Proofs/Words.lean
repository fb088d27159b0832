import MapReduce.Proofs.Split
import MapReduce.Text.Blank

/-!
# Words

White space cuts a text in two whose words follow each other, so the words of a text are those of
its lines.
-/

namespace MapReduce.Text

theorem words_nil : words [] = [] := rfl

theorem words_of_forall {cs : List Char} (hne : cs ≠ []) (h : ∀ c ∈ cs, isBlank c = false) :
    words cs = [cs] := by
  simp [words, splitWhere_of_forall h, hne]

theorem words_append_blank {c : Char} (hc : isBlank c = true) (a b : List Char) :
    words (a ++ c :: b) = words a ++ words b := by
  rw [words, splitWhere_append_cons hc, List.filter_append]
  rfl

theorem ne_nil_of_mem_words {cs word : List Char} (h : word ∈ words cs) : word ≠ [] := by
  simpa using (List.mem_filter.mp h).2

theorem isBlank_of_mem_words {cs word : List Char} (h : word ∈ words cs) {c : Char}
    (hc : c ∈ word) : isBlank c = false :=
  forall_mem_splitWhere isBlank cs word (List.mem_filter.mp h).1 c hc

theorem words_append_newline (a b : List Char) : words (a ++ '\n' :: b) = words a ++ words b :=
  words_append_blank (by decide) a b

end MapReduce.Text
