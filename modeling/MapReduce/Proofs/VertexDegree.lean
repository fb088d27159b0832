import Mathlib.Algebra.BigOperators.Group.List.Lemmas
import Mathlib.Data.List.Count
import Mathlib.Data.List.ReduceOption
import MapReduce.Proofs.WordCount
import MapReduce.Workload.VertexDegree

/-!
# Degrees of vertices

The lines of a text that are not blank are its edges. The same edges are found whether the text is
cut at its newlines, as the map function cuts it or as it is dealt to shards. The ends of the edges
are words to be counted, so the degree of a vertex is the count of its number.
-/

namespace MapReduce.VertexDegree

open scoped List
open Workload (encodeCount countLine)

/-! ### The edges of a text -/

/-- The first two words of a line, if they are numbers. -/
def edge? (line : List Char) : Option (Nat × Nat) :=
  match Text.words line with
  | first :: second :: _ =>
      match Text.readCount first, Text.readCount second with
      | .ok a, .ok b => some (a, b)
      | _, _ => none
  | _ => none

/-- The lines that are not all white space. -/
def entries (text : List Char) : List (List Char) :=
  (splitWhere (· == '\n') text).filter fun line => !line.all Text.isBlank

/-- Each line that is not all white space holds an edge. -/
def IsGraph (text : List Char) : Prop :=
  ∀ line ∈ entries text, (edge? line).isSome

instance (text : List Char) : Decidable (IsGraph text) :=
  inferInstanceAs (Decidable (∀ line ∈ entries text, (edge? line).isSome))

def edges (text : List Char) : List (Nat × Nat) :=
  (entries text).filterMap edge?

/-- Both ends of each edge; a loop ends twice in its vertex. -/
def ends (es : List (Nat × Nat)) : List Nat :=
  es.flatMap fun e => [e.1, e.2]

theorem length_ends (es : List (Nat × Nat)) : (ends es).length = 2 * es.length := by
  induction es with
  | nil => rfl
  | cons e es ih =>
      have hcons : ends (e :: es) = [e.1, e.2] ++ ends es := rfl
      rw [hcons, List.length_append, ih, List.length_cons, List.length_cons, List.length_cons,
        List.length_nil]
      omega

/-! ### Reading a line -/

/-- What a line says: nothing if it is blank, else its edge if it has one. -/
def reading (line : List Char) : List (Option (Nat × Nat)) :=
  if line.all Text.isBlank then [] else [edge? line]

def readings (text : List Char) : List (Option (Nat × Nat)) :=
  (splitWhere (· == '\n') text).flatMap reading

theorem reading_nil : reading [] = [] := rfl

theorem reading_append_return (cs : List Char) : reading (cs ++ ['\r']) = reading cs := by
  have hwords : Text.words (cs ++ ['\r']) = Text.words cs := by
    rw [Text.words_append_blank (by decide), Text.words_nil, List.append_nil]
  have hblank : (cs ++ ['\r']).all Text.isBlank = cs.all Text.isBlank := by
    rw [List.all_append, show ['\r'].all Text.isBlank = true from by decide, Bool.and_true]
  rw [reading, reading, edge?, edge?, hwords, hblank]

theorem readings_eq (text : List Char) : readings text = (entries text).map edge? := by
  rw [readings, entries]
  induction splitWhere (· == '\n') text with
  | nil => rfl
  | cons line ls ih =>
      rw [List.flatMap_cons, ih, reading]
      cases hline : line.all Text.isBlank <;> simp [hline]

theorem isGraph_iff (text : List Char) : IsGraph text ↔ none ∉ readings text := by
  rw [readings_eq, IsGraph]
  simp only [List.mem_map, not_exists, not_and, Option.isSome_iff_ne_none]

theorem edges_eq (text : List Char) : edges text = (readings text).reduceOption := by
  rw [readings_eq, List.reduceOption, List.filterMap_map]
  rfl

theorem length_edges {text : List Char} (h : IsGraph text) :
    (edges text).length = (entries text).length := by
  rw [isGraph_iff] at h
  have hall : ∀ r ∈ readings text, r.isSome := by
    intro r hr
    rw [Option.isSome_iff_ne_none]
    exact ne_of_mem_of_not_mem hr h
  rw [edges_eq, List.reduceOption_length_eq, List.filter_eq_self.mpr hall, readings_eq,
    List.length_map]

/-! ### The map function -/

theorem parseEdge_eq_ok_iff {line : List Char} {e : Nat × Nat} :
    parseEdge line = .ok e ↔ edge? line = some e := by
  unfold parseEdge edge?
  cases Text.words line with
  | nil => simp
  | cons first rest =>
      cases rest with
      | nil =>
          cases hfirst : Text.readCount first <;>
            simp [hfirst, Except.mapError, bind, Except.bind]
      | cons second more =>
          cases hfirst : Text.readCount first <;> cases hsecond : Text.readCount second <;>
            simp [hfirst, hsecond, Except.mapError, bind, Except.bind, pure, Except.pure]

theorem parseEdges_of_notMem (done : List (Nat × Nat)) {ls : List (List Char)}
    (h : none ∉ ls.flatMap reading) :
    parseEdges done ls = .ok (done.reverse ++ (ls.flatMap reading).reduceOption) := by
  induction ls generalizing done with
  | nil => simp [parseEdges]
  | cons line ls ih =>
      rw [List.flatMap_cons, List.mem_append, not_or] at h
      rw [parseEdges, List.flatMap_cons, List.reduceOption_append]
      cases hblank : line.all Text.isBlank with
      | true => simp [reading, hblank, ih _ h.2]
      | false =>
          have hline : edge? line ≠ none := by simpa [reading, hblank, eq_comm] using h.1
          obtain ⟨e, he⟩ := Option.ne_none_iff_exists'.mp hline
          simp [reading, hblank, he, parseEdge_eq_ok_iff.mpr he, ih _ h.2]

theorem parseEdges_of_mem (done : List (Nat × Nat)) {ls : List (List Char)}
    (h : none ∈ ls.flatMap reading) : ∃ e, parseEdges done ls = .error e := by
  induction ls generalizing done with
  | nil => simp at h
  | cons line ls ih =>
      rw [List.flatMap_cons, List.mem_append] at h
      rw [parseEdges]
      cases hblank : line.all Text.isBlank with
      | true =>
          have hrest : none ∈ ls.flatMap reading := by simpa [reading, hblank] using h
          simpa using ih done hrest
      | false =>
          rw [if_neg (by simp)]
          cases hparse : parseEdge line with
          | error e => exact ⟨e, rfl⟩
          | ok edge =>
              have hedge := parseEdge_eq_ok_iff.mp hparse
              have hrest : none ∈ ls.flatMap reading := by simpa [reading, hblank, hedge] using h
              exact ih _ hrest

def endpoints (es : List (Nat × Nat)) : List Record :=
  es.flatMap fun e => [endpoint e.1, endpoint e.2]

theorem flatMap_reading_lines (text : List Char) :
    (Text.lines text).flatMap reading = readings text :=
  Text.flatMap_lines reading reading_nil reading_append_return text

theorem map_of_notMem (key aux : Bytes) {text : List Char} (h : none ∉ readings text) :
    map ⟨key, Utf8.encode text⟩ aux
      = .ok ((endpoints (readings text).reduceOption).map .ok) := by
  rw [← flatMap_reading_lines] at h ⊢
  simp only [map, Workload.decodeText, Utf8.decode_encode, Except.mapError, bind, Except.bind,
    parseEdges_of_notMem [] h, List.reverse_nil, List.nil_append, pure, Except.pure, endpoints,
    List.map_flatMap, List.map_cons, List.map_nil]

theorem map_of_mem (key aux : Bytes) {text : List Char} (h : none ∈ readings text) :
    ∃ e, map ⟨key, Utf8.encode text⟩ aux = .error e := by
  rw [← flatMap_reading_lines] at h
  obtain ⟨e, he⟩ := parseEdges_of_mem [] h
  exact ⟨e, by simp only [map, Workload.decodeText, Utf8.decode_encode, Except.mapError, bind,
    Except.bind, he]⟩

theorem map_of_not_isText (key aux : Bytes) {contents : Bytes} (h : ¬ Utf8.IsText contents) :
    ∃ e, map ⟨key, contents⟩ aux = .error e := by
  obtain ⟨e, hdecode⟩ := Workload.decodeText_of_not_isText h
  exact ⟨e, by simp only [map, hdecode, bind, Except.bind]⟩

/-! ### Counting ends -/

theorem counts_endpoint (vertex : Nat) :
    WordCount.Counts [encodeCount vertex] [endpoint vertex] where
  writable := by
    intro r hr
    obtain rfl := List.mem_singleton.mp hr
    exact Record.writable_of_isToken (Workload.isToken_encodeCount vertex) rfl
  isText := by
    intro w hw
    obtain rfl := List.mem_singleton.mp hw
    exact (Workload.isToken_encodeCount vertex).isText
  mem_keys_iff w := by rw [List.map_singleton, endpoint]
  values w := by
    by_cases hw : encodeCount vertex = w
    · exact ⟨[1], by simp [valuesOf, Record.entry, endpoint, hw], by simp [hw]⟩
    · exact ⟨[], by simp [valuesOf, Record.entry, endpoint, hw], by simp [hw]⟩

theorem counts_endpoints (es : List (Nat × Nat)) :
    WordCount.Counts ((ends es).map encodeCount) (endpoints es) := by
  induction es with
  | nil => exact WordCount.Counts.nil
  | cons e es ih => exact ((counts_endpoint e.1).append (counts_endpoint e.2)).append ih

/-- Different numbers are different words, so the words are counted as the numbers are. -/
theorem map_countLine_dedup (vs : List Nat) :
    (vs.map encodeCount).dedup.map (fun w => countLine w ((vs.map encodeCount).count w))
      = vs.dedup.map fun v => countLine (encodeCount v) (vs.count v) := by
  have hinjective : Function.Injective encodeCount := fun _ _ => Workload.encodeCount_injective
  rw [List.dedup_map_of_injective hinjective, List.map_map]
  apply List.map_congr_left
  intro v _
  rw [Function.comp_apply, List.count_map_of_injective _ _ hinjective]

/-- Each vertex counted once for each edge that ends in it, every edge is counted twice. -/
theorem sum_degrees (es : List (Nat × Nat)) :
    ((ends es).dedup.map fun v => (ends es).count v).sum = 2 * es.length := by
  rw [List.sum_map_count_dedup_eq_length, length_ends]

/-! ### Sharding a graph -/

def endWords : Option (Nat × Nat) → List Bytes
  | none => []
  | some e => [encodeCount e.1, encodeCount e.2]

theorem flatMap_endWords (rs : List (Option (Nat × Nat))) :
    rs.flatMap endWords = (ends rs.reduceOption).map encodeCount := by
  induction rs with
  | nil => rfl
  | cons r rs ih =>
      rw [List.flatMap_cons, ih]
      cases r with
      | none => rfl
      | some e => rfl

variable {n i : Nat} {contents : Bytes} {text : List Char}

def shardReadings (n i : Nat) (contents : Bytes) : List (Option (Nat × Nat)) :=
  (Shard.dealt n i (Bytes.lines contents)).flatMap fun l => reading (Utf8.decodeLossy l)

theorem flatMap_reading_byteLines (text : List Char) :
    (Bytes.lines (Utf8.encode text)).flatMap (fun l => reading (Utf8.decodeLossy l))
      = readings text :=
  Text.flatMap_byteLines reading reading_nil text

theorem readings_of_shard {shardText : List Char}
    (h : Utf8.encode shardText = WordCount.shard n i contents) :
    readings shardText = shardReadings n i contents := by
  rw [← flatMap_reading_byteLines, h, WordCount.lines_shard, shardReadings]

theorem flatMap_shardReadings_perm (hn : 0 < n) (text : List Char) :
    ((List.range n).flatMap fun i => shardReadings n i (Utf8.encode text)).Perm
      (readings text) := by
  calc (List.range n).flatMap (fun i => shardReadings n i (Utf8.encode text))
      = ((List.range n).flatMap fun i => Shard.dealt n i (Bytes.lines (Utf8.encode text))).flatMap
          fun l => reading (Utf8.decodeLossy l) := by
        rw [List.flatMap_assoc]
        rfl
    _ ~ (Bytes.lines (Utf8.encode text)).flatMap fun l => reading (Utf8.decodeLossy l) :=
        (Shard.flatMap_dealt_perm hn _).flatMap_right _
    _ = readings text := flatMap_reading_byteLines text

theorem mem_readings_of_mem_shardReadings {r : Option (Nat × Nat)}
    (h : r ∈ shardReadings n i (Utf8.encode text)) : r ∈ readings text := by
  obtain ⟨l, hl, hr⟩ := List.mem_flatMap.mp h
  rw [← flatMap_reading_byteLines]
  exact List.mem_flatMap.mpr ⟨l, Shard.mem_of_mem_dealt hl, hr⟩

theorem flatMap_shardWords_perm (hn : 0 < n) (text : List Char) :
    ((List.range n).flatMap fun i => (ends (shardReadings n i (Utf8.encode text)).reduceOption).map
      encodeCount).Perm ((ends (edges text)).map encodeCount) := by
  calc (List.range n).flatMap (fun i =>
        (ends (shardReadings n i (Utf8.encode text)).reduceOption).map encodeCount)
      = ((List.range n).flatMap fun i => shardReadings n i (Utf8.encode text)).flatMap endWords := by
        rw [List.flatMap_assoc]
        simp only [flatMap_endWords]
    _ ~ (readings text).flatMap endWords := (flatMap_shardReadings_perm hn text).flatMap_right _
    _ = (ends (edges text)).map encodeCount := by rw [flatMap_endWords, edges_eq]

theorem countsShards_of_isGraph (h : IsGraph text) (aux : Bytes) (n : Nat) :
    WordCount.CountsShards map aux n (Utf8.encode text)
      (fun i => (ends (shardReadings n i (Utf8.encode text)).reduceOption).map encodeCount)
      fun i => endpoints (shardReadings n i (Utf8.encode text)).reduceOption where
  maps i key := by
    obtain ⟨shardText, hshard⟩ := WordCount.isText_shard (Utf8.isText_encode text) n i
    have hnone : none ∉ readings shardText := by
      rw [readings_of_shard hshard]
      exact fun hmem => (isGraph_iff text).mp h (mem_readings_of_mem_shardReadings hmem)
    rw [← hshard, map_of_notMem key aux hnone, readings_of_shard hshard]
  counts _ := counts_endpoints _

/-- The line that holds no edge fails the shard that it is dealt to. -/
theorem failsShard_of_not_isGraph (hn : 0 < n) (h : ¬ IsGraph text) (aux : Bytes) :
    WordCount.FailsShard map aux n (Utf8.encode text) := by
  rw [isGraph_iff, not_not, ← (flatMap_shardReadings_perm hn text).mem_iff, List.mem_flatMap] at h
  obtain ⟨i, hi, hnone⟩ := h
  obtain ⟨shardText, hshard⟩ := WordCount.isText_shard (Utf8.isText_encode text) n i
  refine ⟨i, List.mem_range.mp hi, fun key => ?_⟩
  rw [← hshard]
  apply map_of_mem
  rwa [readings_of_shard hshard]

theorem failsShard_of_not_isText (hn : 0 < n) (h : ¬ Utf8.IsText contents) (aux : Bytes) :
    WordCount.FailsShard map aux n contents := by
  obtain ⟨i, hi, hshard⟩ := WordCount.exists_shard_not_isText hn h
  exact ⟨i, hi, fun key => map_of_not_isText key aux hshard⟩

/-! ### How many ends there are -/

/-- An edge takes two characters of its line at least. -/
theorem length_reading_le (line : List Char) :
    2 * (reading line).reduceOption.length ≤ line.length := by
  have hwords := Text.length_words_le line
  unfold reading edge?
  split
  · simp
  · split
    · next first second rest hline =>
        rw [hline, List.length_cons, List.length_cons] at hwords
        split <;> simp [List.reduceOption]
        omega
    · simp [List.reduceOption]

theorem length_ends_le (text : List Char) : (ends (edges text)).length ≤ text.length := by
  rw [length_ends, edges_eq, readings]
  induction text using Line.induction_on '\n' with
  | hlast a ha => simpa [Text.splitWhere_line ha] using length_reading_le a
  | hline a b ha ih =>
      rw [Text.splitWhere_append_newline ha, List.flatMap_cons, List.reduceOption_append,
        List.length_append, List.length_append, List.length_cons]
      have hfirst := length_reading_le a
      omega

end MapReduce.VertexDegree
