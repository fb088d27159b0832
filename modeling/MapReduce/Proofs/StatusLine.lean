import MapReduce.Proofs.Chunking
import MapReduce.Proofs.Session

/-!
# Status lines

A status that was read and is written down again reads as the same status. The message of an error
may be any text: on the wire it is one line, which reads as an error with this message, up to the
limit for lines, in whatever pieces it arrives.
-/

namespace MapReduce

theorem LineDecoder.bytes_cut (limit : Nat) (l : Bytes) : (cut limit l).bytes = l.take limit := by
  rw [cut]
  split
  · next hshort => exact (List.take_of_length_le hshort).symm
  · rfl

namespace Status

open ProcessWorker (lineLimit reading)

/-! ### Reading and writing -/

/-- The colon and the space that are written before a message are those that reading takes off. -/
theorem parse_line_error (message : String) : parse (line (.error message)) = .error message := by
  rw [line, parse, String.toList_append]
  exact congrArg Status.error String.ofList_toList

theorem parse_line_parse (text : String) : parse (parse text).line = parse text := by
  generalize hparse : parse text = status
  cases status with
  | ok => decide
  | error message => exact parse_line_error message
  | diagnostic remark =>
      obtain rfl : text = remark := by
        rw [parse] at hparse
        split at hparse
        · cases hparse
        · cases hparse
        · exact Status.diagnostic.inj hparse
      exact hparse

/-! ### A stream of lines -/

/-- The statuses that are heard from a stream that arrives in these pieces and then ends. -/
def heardFrom (chunks : List Bytes) : List Status :=
  (LineDecoder.decodeAll lineLimit chunks).map fun line => parse line.bytes.show

/-- Each line is heard once, in order, as its start within the limit reads. -/
theorem heardFrom_eq (chunks : List Bytes) :
    heardFrom chunks = (Bytes.lines chunks.flatten).map (reading lineLimit) := by
  rw [heardFrom, (LineDecoder.decodeAll_eq lineLimit chunks).1, List.map_map]
  apply List.map_congr_left
  intro l _
  rw [Function.comp_apply, LineDecoder.bytes_cut]
  rfl

theorem newline_notMem_failure (message : String) :
    Bytes.newline ∉ Bytes.ofString (failure message).line := by
  rw [ofString_failure_line, List.mem_append, not_or]
  refine ⟨by decide, ?_⟩
  rw [Bytes.ofString, Bytes.newline_mem_encode_iff]
  exact notMem_oneLine message (Or.inr rfl)

theorem heardFrom_failure (message : String) {chunks : List Bytes}
    (hchunks : chunks.flatten = (Bytes.ofString (failure message).line).terminate) :
    heardFrom chunks = [.error (Bytes.show
      ((Bytes.ofString (oneLine message)).take (lineLimit - errorWordLength)))] := by
  have hlines : Bytes.lines chunks.flatten = [Bytes.ofString (failure message).line] := by
    rw [hchunks, Bytes.terminate, Bytes.lines_append_newline (newline_notMem_failure message),
      Bytes.lines_nil]
  rw [heardFrom_eq, hlines, List.map_singleton, reading,
    parse_take_failure message (by decide)]

/-- **Error messages.** The line of a failure, in whatever pieces it arrives, is heard as one status,
an error. Its message is the message of the failure with each line break replaced by a space, or the
text of the first 65529 bytes of that. And a status that was heard reads the same when it is written
down again. -/
theorem failure_heard :
    (∀ (message : String) (chunks : List Bytes),
        chunks.flatten = (Bytes.ofString (failure message).line).terminate →
          ∃ text, heardFrom chunks = [.error text]
            ∧ ((Bytes.ofString (oneLine message)).length ≤ 65529 → text = oneLine message)
            ∧ (65529 < (Bytes.ofString (oneLine message)).length →
                text = Bytes.show ((Bytes.ofString (oneLine message)).take 65529)))
      ∧ ∀ text, parse (parse text).line = parse text := by
  refine ⟨?_, parse_line_parse⟩
  intro message chunks hchunks
  have hlimit : lineLimit - errorWordLength = 65529 := rfl
  have hheard := heardFrom_failure message hchunks
  rw [hlimit] at hheard
  refine ⟨_, hheard, ?_, fun _ => rfl⟩
  intro hshort
  rw [List.take_of_length_le hshort, Bytes.show_ofString]

/-- A message that reads like the outcomes of two tasks is one error. -/
theorem failure_heard_twoOutcomes :
    heardFrom (["error: ok", "  er", "ror: no\n"].map Bytes.ofString) = [.error "ok  error: no"]
      ∧ parse (parse "errorno").line = .error "no" := by
  constructor
  · have hpieces : (["error: ok", "  er", "ror: no\n"].map Bytes.ofString).flatten
        = (Bytes.ofString (failure "ok\r\nerror: no").line).terminate := by decide +kernel
    obtain ⟨text, hheard, hshort, -⟩ := failure_heard.1 "ok\r\nerror: no" _ hpieces
    rw [hheard, hshort (by decide +kernel)]
    decide +kernel
  · rw [failure_heard.2]
    decide

end Status

end MapReduce
