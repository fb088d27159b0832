import MapReduce.Bytes

/-!
Cutting a stream of bytes into lines as it arrives. Lines need not be text, and an over-long line
is cut at a limit instead of being refused.
-/
namespace MapReduce

/-- A line, without its newline, of which only the start may have been kept. -/
structure OutputLine where
  bytes : Bytes
  truncated : Bool
  deriving DecidableEq, Repr

structure LineDecoder where
  limit : Nat
  /-- The start of the current line has been handed out, and its rest is to be dropped. -/
  discarding : Bool
  buffer : Bytes
  deriving DecidableEq, Repr

namespace LineDecoder

def withLimit (limit : Nat) : LineDecoder :=
  ⟨limit, false, []⟩

def feed (d : LineDecoder) (bs : Bytes) : LineDecoder :=
  { d with buffer := d.buffer ++ bs }

def cutLine (bs : Bytes) : Option (Bytes × Bytes) :=
  match bs.dropWhile (· != Bytes.newline) with
  | [] => none
  | _ :: rest => some (bs.takeWhile (· != Bytes.newline), rest)

def skip (d : LineDecoder) : LineDecoder :=
  if d.discarding then
    match cutLine d.buffer with
    | some (_, rest) => { d with discarding := false, buffer := rest }
    | none => { d with buffer := [] }
  else d

def truncate (d : LineDecoder) : Option OutputLine × LineDecoder :=
  (some ⟨d.buffer.take d.limit, true⟩,
    { d with discarding := true, buffer := d.buffer.drop d.limit })

/-- The next line, once enough of it has arrived. -/
def next (d : LineDecoder) : Option OutputLine × LineDecoder :=
  let d := d.skip
  if d.discarding then (none, d)
  else
    match cutLine d.buffer with
    | some (line, rest) =>
      if line.length ≤ d.limit then (some ⟨line, false⟩, { d with buffer := rest })
      else d.truncate
    | none => if d.limit < d.buffer.length then d.truncate else (none, d)

def last (d : LineDecoder) : Option OutputLine × LineDecoder :=
  match d.next with
  | (some line, d) => (some line, d)
  | (none, d) =>
    if d.buffer.isEmpty || d.discarding then (none, { d with buffer := [] })
    else (some ⟨d.buffer, false⟩, { d with buffer := [] })

/-- What handing out a line uses up: bytes count double, and so does the start of an over-long
line, of which no byte may be kept. -/
def unread (d : LineDecoder) : Nat :=
  2 * d.buffer.length + if d.discarding then 0 else 1

theorem unread_feed (d : LineDecoder) (bs : Bytes) :
    (d.feed bs).unread = d.unread + 2 * bs.length := by
  cases h : d.discarding <;> simp [unread, feed, h] <;> omega

theorem length_of_cutLine {bs line rest : Bytes} (h : cutLine bs = some (line, rest)) :
    line.length + rest.length + 1 = bs.length := by
  unfold cutLine at h
  have whole := congrArg List.length (List.takeWhile_append_dropWhile (p := (· != Bytes.newline)) (l := bs))
  split at h
  · simp at h
  · rename_i b tail hdrop
    simp only [Option.some.injEq, Prod.mk.injEq] at h
    rw [hdrop] at whole
    simp only [List.length_append, List.length_cons] at whole
    rw [← h.1, ← h.2]
    omega

theorem unread_skip_le (d : LineDecoder) : d.skip.unread ≤ d.unread := by
  unfold skip
  split
  · rename_i hd
    split
    · rename_i line rest hcut
      have := length_of_cutLine hcut
      simp [unread, hd]
      omega
    · simp [unread, hd]
  · exact Nat.le_refl _

theorem unread_truncate_lt (d : LineDecoder) (h : ¬d.discarding = true) :
    d.truncate.2.unread < d.unread := by
  simp only [truncate, unread, h, List.length_drop, Bool.false_eq_true, ↓reduceIte]
  omega

theorem unread_lt_of_next {d d' : LineDecoder} {line : OutputLine} (h : d.next = (some line, d')) :
    d'.unread < d.unread := by
  have hskip := unread_skip_le d
  unfold next at h
  generalize d.skip = e at h hskip
  simp only at h
  split at h
  · simp at h
  · rename_i hd
    have truncated : ∀ {d' : LineDecoder} {line : OutputLine},
        e.truncate = (some line, d') → d'.unread < d.unread := by
      intro d' line ht
      have := unread_truncate_lt e hd
      rw [ht] at this
      exact Nat.lt_of_lt_of_le this hskip
    split at h
    · rename_i l rest hcut
      have := length_of_cutLine hcut
      split at h
      · simp only [Prod.mk.injEq] at h
        rw [← h.2]
        simp only [unread] at hskip ⊢
        omega
      · exact truncated h
    · split at h
      · exact truncated h
      · simp at h

theorem unread_le_of_next {d d' : LineDecoder} (h : d.next = (none, d')) :
    d'.unread ≤ d.unread := by
  have hskip := unread_skip_le d
  unfold next at h
  generalize d.skip = e at h hskip
  simp only at h
  split at h
  · simp only [Prod.mk.injEq, true_and] at h
    exact h ▸ hskip
  · split at h
    · split at h <;> simp [truncate] at h
    · split at h
      · simp [truncate] at h
      · simp only [Prod.mk.injEq, true_and] at h
        exact h ▸ hskip

theorem unread_lt_of_last {d d' : LineDecoder} {line : OutputLine} (h : d.last = (some line, d')) :
    d'.unread < d.unread := by
  unfold last at h
  split at h
  · rename_i l e hnext
    simp only [Prod.mk.injEq] at h
    exact h.2 ▸ unread_lt_of_next hnext
  · rename_i e hnext
    have := unread_le_of_next hnext
    split at h
    · simp at h
    · rename_i hd
      simp only [Prod.mk.injEq] at h
      rw [← h.2]
      simp [unread] at *
      have := List.length_pos_iff.2 hd.1
      split <;> omega

end LineDecoder

end MapReduce
