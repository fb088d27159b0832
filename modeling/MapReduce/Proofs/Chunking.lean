import MapReduce.Proofs.LineDecoder

/-!
# Streams in pieces

A decoder hands out the lines of a stream, each whole or cut at the limit, and no other lines,
however the stream is cut into the pieces that arrive. Every call keeps one account: the lines
handed out, and those that are still ahead, are the lines of the stream.
-/

namespace MapReduce.LineDecoder

/-- A line as it is handed out: whole, or its start if it is longer than the limit. -/
def cut (limit : Nat) (line : Bytes) : OutputLine :=
  if line.length ≤ limit then ⟨line, false⟩ else ⟨line.take limit, true⟩

def cutLines (limit : Nat) (stream : Bytes) : List OutputLine :=
  (Bytes.lines stream).map (cut limit)

/-- The rest of a stream behind its first newline. -/
def behindNewline (stream : Bytes) : Bytes :=
  (stream.dropWhile (· != Bytes.newline)).tail

/-- The lines that are still to be handed out if `rest` arrives and nothing else. -/
def ahead (d : LineDecoder) (rest : Bytes) : List OutputLine :=
  cutLines d.limit (if d.discarding then behindNewline (d.buffer ++ rest) else d.buffer ++ rest)

/-- Calls until nothing is handed out. -/
def callAll (call : LineDecoder → Option OutputLine × LineDecoder)
    (hcall : ∀ {d d' : LineDecoder} {line : OutputLine}, call d = (some line, d') →
      d'.unread < d.unread)
    (d : LineDecoder) : List OutputLine × LineDecoder :=
  match _h : call d with
  | (none, d') => ([], d')
  | (some line, d') =>
    let (lines, d'') := callAll call hcall d'
    (line :: lines, d'')
termination_by d.unread
decreasing_by exact hcall _h

/-- The lines that have arrived whole, or far enough to be cut. -/
def drain (d : LineDecoder) : List OutputLine × LineDecoder :=
  callAll next unread_lt_of_next d

/-- The lines that are left when the stream has ended. -/
def finish (d : LineDecoder) : List OutputLine × LineDecoder :=
  callAll last unread_lt_of_last d

def feedAll (d : LineDecoder) : List Bytes → List OutputLine × LineDecoder
  | [] => ([], d)
  | chunk :: chunks =>
    let (lines, d) := (d.feed chunk).drain
    let (more, d) := d.feedAll chunks
    (lines ++ more, d)

/-- What is handed out of a stream that arrives in these pieces and then ends. -/
def decodeAll (limit : Nat) (chunks : List Bytes) : List OutputLine :=
  let (lines, d) := (withLimit limit).feedAll chunks
  lines ++ d.finish.1

variable {limit : Nat} {d d' : LineDecoder} {line : OutputLine} {lines : List OutputLine}

/-! ### Cutting -/

theorem cut_of_le {l : Bytes} (h : l.length ≤ limit) : cut limit l = ⟨l, false⟩ :=
  if_pos h

theorem cut_of_lt {l : Bytes} (h : limit < l.length) : cut limit l = ⟨l.take limit, true⟩ :=
  if_neg (Nat.not_le.mpr h)

theorem cutLines_append_newline {a : Bytes} (ha : Bytes.newline ∉ a) (b : Bytes) :
    cutLines limit (a ++ Bytes.newline :: b) = cut limit a :: cutLines limit b := by
  rw [cutLines, Bytes.lines_append_newline ha, List.map_cons]
  rfl

theorem behindNewline_append {a : Bytes} (ha : Bytes.newline ∉ a) (b : Bytes) :
    behindNewline (a ++ Bytes.newline :: b) = b := by
  rw [behindNewline, Bytes.dropWhile_of_newline ha, List.tail_cons]

theorem behindNewline_append_of_notMem {a : Bytes} (ha : Bytes.newline ∉ a) (b : Bytes) :
    behindNewline (a ++ b) = behindNewline b := by
  rw [behindNewline, List.dropWhile_append, Bytes.dropWhile_of_not_mem ha]
  rfl

theorem behindNewline_of_notMem {a : Bytes} (ha : Bytes.newline ∉ a) : behindNewline a = [] := by
  rw [behindNewline, Bytes.dropWhile_of_not_mem ha, List.tail_nil]

/-- A stream that starts with more than the limit of a line starts with a line to be cut, and goes
on behind the newline of that line. -/
theorem cutLines_append_of_lt {a : Bytes} (ha : Bytes.newline ∉ a) (hlong : limit < a.length)
    (b : Bytes) :
    cutLines limit (a ++ b)
      = ⟨a.take limit, true⟩ :: cutLines limit (behindNewline (a.drop limit ++ b)) := by
  have htake (more : Bytes) : cut limit (a ++ more) = ⟨a.take limit, true⟩ := by
    rw [cut_of_lt (by rw [List.length_append]; omega),
      List.take_append_of_le_length (Nat.le_of_lt hlong)]
  have hdrop : Bytes.newline ∉ a.drop limit := fun hmem => ha (List.mem_of_mem_drop hmem)
  by_cases hmem : Bytes.newline ∈ b
  · obtain ⟨more, rest, rfl, hmore⟩ := List.eq_append_cons_of_mem hmem
    have hfirst : Bytes.newline ∉ a ++ more := by simp [ha, hmore]
    rw [← List.append_assoc, cutLines_append_newline hfirst, htake,
      behindNewline_append_of_notMem hdrop, behindNewline_append hmore]
  · have hline : Bytes.newline ∉ a ++ b := by simp [ha, hmem]
    have hne : a ++ b ≠ [] := by
      apply List.ne_nil_of_length_pos
      rw [List.length_append]
      omega
    have hrest : Bytes.newline ∉ a.drop limit ++ b := by simp [hdrop, hmem]
    rw [cutLines, Bytes.lines_of_not_mem hline hne, List.map_singleton, htake,
      behindNewline_of_notMem hrest]
    rfl

/-! ### One call -/

theorem ahead_feed (d : LineDecoder) (chunk rest : Bytes) :
    (d.feed chunk).ahead rest = d.ahead (chunk ++ rest) := by
  simp [ahead, feed]

theorem ahead_skip (d : LineDecoder) (rest : Bytes) : d.skip.ahead rest = d.ahead rest := by
  cases hd : d.discarding with
  | false => simp [skip, hd]
  | true =>
      rcases exists_cutLine d.buffer with ⟨hbuffer, hcut⟩ | ⟨a, b, hbuffer, ha, hcut⟩
      · simp [skip, ahead, hd, hcut, behindNewline_append_of_notMem hbuffer]
      · have hskip : d.skip = { d with discarding := false, buffer := b } := by
          simp [skip, hd, hcut]
        simp [hskip, ahead, hd, hbuffer, behindNewline_append ha]

theorem ahead_truncate {a : Bytes} (ha : Bytes.newline ∉ a) (hlong : d.limit < a.length)
    (hreading : d.discarding = false) {b : Bytes} (hbuffer : d.buffer = a ++ b) (rest : Bytes) :
    d.truncate = (some line, d') → d.ahead rest = line :: d'.ahead rest := by
  intro h
  obtain ⟨hline, rfl⟩ := Prod.mk.inj h
  obtain rfl := Option.some.inj hline
  have hle := Nat.le_of_lt hlong
  simp only [ahead, hreading, hbuffer, Bool.false_eq_true, if_false, if_true, List.append_assoc,
    List.take_append_of_le_length hle, List.drop_append_of_le_length hle]
  exact cutLines_append_of_lt ha hlong (b ++ rest)

/-- A line that is handed out was the first ahead. -/
theorem ahead_of_next (h : d.next = (some line, d')) (rest : Bytes) :
    d.ahead rest = line :: d'.ahead rest := by
  rw [← ahead_skip d rest]
  unfold next at h
  generalize d.skip = e at h
  dsimp only at h
  cases he : e.discarding with
  | true => simp [he] at h
  | false =>
      simp only [he, Bool.false_eq_true, if_false] at h
      rcases exists_cutLine e.buffer with ⟨hbuffer, hcut⟩ | ⟨a, b, hbuffer, ha, hcut⟩
      · simp only [hcut] at h
        split at h
        · next hlong => exact ahead_truncate hbuffer hlong he (List.append_nil _).symm rest h
        · simp at h
      · simp only [hcut] at h
        split at h
        · next hshort =>
            obtain ⟨hline, rfl⟩ := Prod.mk.inj h
            obtain rfl := Option.some.inj hline
            simp only [ahead, he, hbuffer, Bool.false_eq_true, if_false, List.append_assoc,
              List.cons_append]
            rw [cutLines_append_newline ha, cut_of_le hshort]
        · next hlong => exact ahead_truncate ha (Nat.not_le.mp hlong) he hbuffer rest h

/-- What a call leaves that hands out nothing: the start of a line that may still be within the
limit, and nothing at all while the rest of an over-long line is dropped. -/
structure Starved (d d' : LineDecoder) : Prop where
  ahead_eq : ∀ rest, d.ahead rest = d'.ahead rest
  limit_eq : d'.limit = d.limit
  newline_notMem : Bytes.newline ∉ d'.buffer
  length_le : d'.buffer.length ≤ d.limit
  buffer_of_discarding : d'.discarding = true → d'.buffer = []

theorem starved_of_next (h : d.next = (none, d')) : Starved d d' := by
  have hahead := ahead_skip d
  have hlimit := limit_skip d
  have hempty := buffer_skip_of_discarding (d := d)
  unfold next at h
  generalize d.skip = e at h hahead hlimit hempty
  dsimp only at h
  cases he : e.discarding with
  | true =>
      simp only [he, if_true] at h
      obtain ⟨-, rfl⟩ := Prod.mk.inj h
      have hbuffer := hempty he
      exact ⟨fun rest => (hahead rest).symm, hlimit, by simp [hbuffer], by simp [hbuffer], hempty⟩
  | false =>
      simp only [he, Bool.false_eq_true, if_false] at h
      rcases exists_cutLine e.buffer with ⟨hbuffer, hcut⟩ | ⟨a, b, hbuffer, ha, hcut⟩
      · simp only [hcut] at h
        split at h
        · simp [truncate] at h
        · next hshort =>
            obtain ⟨-, rfl⟩ := Prod.mk.inj h
            exact ⟨fun rest => (hahead rest).symm, hlimit, hbuffer,
              hlimit ▸ Nat.not_lt.mp hshort, hempty⟩
      · simp only [hcut] at h
        split at h <;> simp [truncate] at h

theorem ahead_of_last (h : d.last = (some line, d')) : d.ahead [] = line :: d'.ahead [] := by
  unfold last at h
  split at h
  · next l e hnext =>
      obtain ⟨hline, rfl⟩ := Prod.mk.inj h
      obtain rfl := Option.some.inj hline
      exact ahead_of_next hnext []
  · next e hnext =>
      have hstarved := starved_of_next hnext
      split at h
      · simp at h
      · next hnot =>
          obtain ⟨hline, rfl⟩ := Prod.mk.inj h
          obtain rfl := Option.some.inj hline
          simp only [Bool.or_eq_true, List.isEmpty_iff, not_or, Bool.not_eq_true] at hnot
          have hline := Bytes.lines_of_not_mem hstarved.newline_notMem hnot.1
          have hshort : e.buffer.length ≤ e.limit := hstarved.limit_eq ▸ hstarved.length_le
          rw [hstarved.ahead_eq]
          simp only [ahead, hnot.2, Bool.false_eq_true, if_false, List.append_nil, cutLines, hline,
            Bytes.lines_nil, List.map_cons, List.map_nil, cut_of_le hshort]

theorem ahead_of_last_none (h : d.last = (none, d')) : d.ahead [] = [] := by
  unfold last at h
  split at h
  · simp at h
  · next e hnext =>
      have hstarved := starved_of_next hnext
      split at h
      · next hover =>
          have hbuffer : e.buffer = [] := by
            rcases (Bool.or_eq_true _ _).mp hover with hover | hover
            · exact List.isEmpty_iff.mp hover
            · exact hstarved.buffer_of_discarding hover
          rw [hstarved.ahead_eq]
          simp [ahead, hbuffer, behindNewline, cutLines]
      · simp at h

/-! ### All calls -/

theorem callAll_ahead {call : LineDecoder → Option OutputLine × LineDecoder}
    {hcall : ∀ {d d' : LineDecoder} {line : OutputLine}, call d = (some line, d') →
      d'.unread < d.unread}
    {rest : Bytes}
    (hsome : ∀ {d d' : LineDecoder} {line : OutputLine}, call d = (some line, d') →
      d.ahead rest = line :: d'.ahead rest)
    (h : callAll call hcall d = (lines, d')) :
    ∃ e, call e = (none, d') ∧ d.ahead rest = lines ++ e.ahead rest := by
  induction d using callAll.induct call hcall generalizing lines with
  | case1 d e hnone =>
      rw [callAll] at h
      split at h
      · next e' hnone' =>
          obtain ⟨rfl, rfl⟩ := Prod.mk.inj h
          exact ⟨d, hnone', rfl⟩
      · next hline => simp [hnone] at hline
  | case2 d line e hline more last hmore ih =>
      rw [callAll] at h
      split at h
      · next hnone => simp [hline] at hnone
      · next line' e' hline' =>
          obtain ⟨rfl, rfl⟩ : line = line' ∧ e = e' := by
            simpa using hline.symm.trans hline'
          rw [hmore] at h
          obtain ⟨rfl, rfl⟩ := Prod.mk.inj h
          obtain ⟨f, hnone, hahead⟩ := ih hmore
          exact ⟨f, hnone, by rw [hsome hline, hahead, List.cons_append]⟩

theorem drain_ahead (h : d.drain = (lines, d')) (rest : Bytes) :
    d.ahead rest = lines ++ d'.ahead rest := by
  obtain ⟨e, hnone, hahead⟩ := callAll_ahead (fun hnext => ahead_of_next hnext rest) h
  rw [hahead, (starved_of_next hnone).ahead_eq]

theorem finish_ahead (d : LineDecoder) : d.finish.1 = d.ahead [] := by
  obtain ⟨e, hnone, hahead⟩ := callAll_ahead ahead_of_last (Prod.eta d.finish).symm
  rw [hahead, ahead_of_last_none hnone, List.append_nil]

theorem feedAll_ahead {chunks : List Bytes} (h : d.feedAll chunks = (lines, d')) (rest : Bytes) :
    d.ahead (chunks.flatten ++ rest) = lines ++ d'.ahead rest := by
  induction chunks generalizing d lines with
  | nil =>
      obtain ⟨rfl, rfl⟩ := Prod.mk.inj h
      rfl
  | cons chunk chunks ih =>
      rcases hdrain : (d.feed chunk).drain with ⟨first, e⟩
      rcases hmore : e.feedAll chunks with ⟨more, f⟩
      simp only [feedAll, hdrain, hmore] at h
      obtain ⟨rfl, rfl⟩ := Prod.mk.inj h
      calc d.ahead ((chunk :: chunks).flatten ++ rest)
          = (d.feed chunk).ahead (chunks.flatten ++ rest) := by
            rw [ahead_feed, List.flatten_cons, List.append_assoc]
        _ = first ++ e.ahead (chunks.flatten ++ rest) := drain_ahead hdrain _
        _ = (first ++ more) ++ f.ahead rest := by rw [ih hmore, List.append_assoc]

/-- **Chunking.** A stream yields its lines in order and once each, an unterminated tail among them:
whole if they are within the limit, else their starts. In which pieces it arrives does not show.
Whenever nothing is handed out, no more than the limit is kept. -/
theorem decodeAll_eq (limit : Nat) (chunks : List Bytes) :
    decodeAll limit chunks = (Bytes.lines chunks.flatten).map (cut limit)
      ∧ ∀ d d' : LineDecoder, d.limit = limit → d.next = (none, d') → d'.buffer.length ≤ limit := by
  constructor
  · rcases hfeed : (withLimit limit).feedAll chunks with ⟨lines, d⟩
    have hahead := feedAll_ahead hfeed []
    calc decodeAll limit chunks = lines ++ d.ahead [] := by
          simp only [decodeAll, hfeed, finish_ahead]
      _ = (withLimit limit).ahead (chunks.flatten ++ []) := hahead.symm
      _ = cutLines limit chunks.flatten := by simp [ahead, withLimit]
  · rintro d d' rfl hnext
    exact (starved_of_next hnext).length_le

end MapReduce.LineDecoder
