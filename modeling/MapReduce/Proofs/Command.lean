import MapReduce.Proofs.Utf8
import MapReduce.Proofs.Words
import MapReduce.Task

/-!
# Command lines

A task that can be sent is read back from its command line as it was. The line holds neither line
end, so nothing is lost when it is cut out of the stream again.
-/

namespace MapReduce

namespace Bytes

theorem newline_mem_encode_iff {cs : List Char} : newline ∈ Utf8.encode cs ↔ '\n' ∈ cs :=
  Utf8.byteOfNat_mem_encode_iff (c := '\n') (by decide)

theorem carriageReturn_mem_encode_iff {cs : List Char} :
    carriageReturn ∈ Utf8.encode cs ↔ '\r' ∈ cs :=
  Utf8.byteOfNat_mem_encode_iff (c := '\r') (by decide)

theorem space_mem_encode_iff {cs : List Char} : space ∈ Utf8.encode cs ↔ ' ' ∈ cs :=
  Utf8.byteOfNat_mem_encode_iff (c := ' ') (by decide)

theorem show_encode (cs : List Char) : Bytes.show (Utf8.encode cs) = String.ofList cs := by
  rw [Bytes.show, Utf8.decodeLossy_encode]

theorem show_ofString (s : String) : Bytes.show (ofString s) = s := by
  rw [ofString, show_encode, String.ofList_toList]

end Bytes

namespace Command

theorem isSendable_iff {path : Path} :
    isSendable path = true ↔
      ∃ cs, path = Utf8.encode cs ∧ cs ≠ [] ∧ ∀ c ∈ cs, Text.isBlank c = false := by
  constructor
  · intro h
    unfold isSendable at h
    split at h
    · next cs hdecode =>
        refine ⟨cs, (Utf8.encode_of_decode hdecode).symm, ?_⟩
        simpa using h
    · simp at h
  · rintro ⟨cs, rfl, hne, hcs⟩
    simpa [isSendable, Utf8.decode_encode, hne] using hcs

theorem ofTask_eq_ok_iff {task : Task} {command : Command} :
    ofTask task = .ok command ↔
      isSendable task.input = true ∧ isSendable task.output = true ∧ command = .run task := by
  unfold ofTask
  cases isSendable task.input <;> cases isSendable task.output <;> simp [eq_comm]

theorem toList_line (kind : TaskKind) (input output : List Char) :
    (line (.run ⟨kind, Utf8.encode input, Utf8.encode output⟩)).toList
      = kind.name.toList ++ ' ' :: (input ++ ' ' :: output) := by
  simp [line, Bytes.show_encode, toString]

/-- A task is read back from its line. -/
theorem parse_line {task : Task} (hinput : isSendable task.input = true)
    (houtput : isSendable task.output = true) :
    parse (line (.run task)) = .ok (.run task) := by
  obtain ⟨kind, input, output⟩ := task
  obtain ⟨input, rfl, hinputNe, hinputWord⟩ := isSendable_iff.mp hinput
  obtain ⟨output, rfl, houtputNe, houtputWord⟩ := isSendable_iff.mp houtput
  have hname : kind.name.toList.all (fun c => !Text.isBlank c) = true := by
    cases kind <;> decide
  have hwords : Text.words (line (.run ⟨kind, Utf8.encode input, Utf8.encode output⟩)).toList
      = [kind.name.toList, input, output] := by
    rw [toList_line, Text.words_append_blank (by decide), Text.words_append_blank (by decide),
      Text.words_of_forall (by cases kind <;> decide) (by simpa using hname),
      Text.words_of_forall hinputNe hinputWord, Text.words_of_forall houtputNe houtputWord]
    rfl
  rw [parse, hwords]
  cases kind <;> rfl

theorem notMem_line {task : Task} (hinput : isSendable task.input = true)
    (houtput : isSendable task.output = true) {c : Char} (hc : c = '\n' ∨ c = '\r') :
    c ∉ (line (.run task)).toList := by
  obtain ⟨kind, input, output⟩ := task
  obtain ⟨input, rfl, -, hinputWord⟩ := isSendable_iff.mp hinput
  obtain ⟨output, rfl, -, houtputWord⟩ := isSendable_iff.mp houtput
  have hblank : Text.isBlank c = true := by
    rcases hc with rfl | rfl <;> decide
  have hname : c ∉ kind.name.toList := by
    rcases hc with rfl | rfl <;> cases kind <;> decide
  have hspace : c ≠ ' ' := by
    rcases hc with rfl | rfl <;> decide
  rw [toList_line]
  simp only [List.mem_append, List.mem_cons, hspace, false_or, not_or]
  exact ⟨hname, fun h => by simp [hinputWord c h] at hblank,
    fun h => by simp [houtputWord c h] at hblank⟩

end Command

end MapReduce
