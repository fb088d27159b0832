import MapReduce.Proofs.LineDecoder
import MapReduce.Worker.Process

/-!
# Waiting for an answer

The reader of a child that writes whole lines passes over those that are no outcome and stops behind
the first that is one. Giving up leaves every line that was not read where it is.
-/

namespace MapReduce

namespace ProcessWorker

/-- These lines are unread, once `rest` has arrived too; reading does not fail on the way to them. -/
structure Unread (limit : Nat) (decoder : LineDecoder) (incoming : List Arrival) (rest : Bytes)
    (lines : List Bytes) : Prop where
  limit_eq : decoder.limit = limit
  readable : ∀ e, Arrival.failure e ∉ incoming
  before : decoder.Before (incoming.flatMap Arrival.bytes ++ rest) lines

namespace Unread

variable {limit : Nat} {decoder : LineDecoder} {incoming : List Arrival} {rest : Bytes}
  {lines : List Bytes}

theorem concat (h : Unread limit decoder incoming rest lines) {l : Bytes}
    (hl : Bytes.newline ∉ l) : Unread limit decoder incoming (rest ++ l.terminate) (lines ++ [l]) where
  limit_eq := h.limit_eq
  readable := h.readable
  before := by
    rw [← List.append_assoc]
    exact h.before.concat hl

theorem deliver (h : Unread limit decoder incoming rest lines) (n : Nat) :
    Unread limit decoder (incoming ++ [.chunk (rest.take n)]) (rest.drop n) lines where
  limit_eq := h.limit_eq
  readable e he := h.readable e (by simpa using he)
  before := by simpa [Arrival.bytes] using h.before

theorem lull (h : Unread limit decoder incoming rest lines) :
    Unread limit decoder (incoming ++ [.lull]) rest lines where
  limit_eq := h.limit_eq
  readable e he := h.readable e (by simpa using he)
  before := by simpa [Arrival.bytes] using h.before

end Unread

/-- What a wait for a line has led to. A patient caller leaves only when nothing more can come. -/
inductive Waited (limit : Nat) (patient : Prop) (arrivals : List Arrival) (rest : Bytes)
    (lines : List Bytes) : Received × LineDecoder × List Arrival → Prop where
  | line {decoder : LineDecoder} {incoming : List Arrival} {line : OutputLine} {l : Bytes}
      {ls : List Bytes} (hlines : lines = l :: ls) (hline : line.bytes = l.take limit)
      (hsuffix : incoming <:+ arrivals) (hunread : Unread limit decoder incoming rest ls) :
      Waited limit patient arrivals rest lines (.line line, decoder, incoming)
  | nothing {decoder : LineDecoder} {incoming : List Arrival}
      (hunread : Unread limit decoder incoming rest lines)
      (hnone : patient → rest = [] → lines = []) :
      Waited limit patient arrivals rest lines (.nothing, decoder, incoming)

theorem Waited.later {limit : Nat} {patient : Prop} {arrivals : List Arrival} {rest : Bytes}
    {lines : List Bytes} {arrival : Arrival} {result : Received × LineDecoder × List Arrival}
    (h : Waited limit patient arrivals rest lines result) :
    Waited limit patient (arrival :: arrivals) rest lines result := by
  cases h with
  | line hlines hline hsuffix hunread =>
      exact .line hlines hline (hsuffix.trans (List.suffix_cons _ _)) hunread
  | nothing hunread hnone => exact .nothing hunread hnone

variable {limit : Nat} {decoder : LineDecoder} {incoming : List Arrival} {rest : Bytes}
  {lines : List Bytes} {bounded : Bool} {patient : Prop}

theorem receive_waited (hpatient : patient → bounded = false ∨ Arrival.lull ∉ incoming)
    (h : Unread limit decoder incoming rest lines) :
    Waited limit patient incoming rest lines (receive bounded false decoder incoming) := by
  induction incoming generalizing decoder with
  | nil =>
      rw [receive]
      rcases hnext : decoder.next with ⟨_ | line, decoder'⟩
      · obtain ⟨hlimit, hbefore, hnone⟩ := h.before.next_eq_none hnext
        exact .nothing ⟨hlimit.trans h.limit_eq, h.readable, hbefore⟩ fun _ hrest =>
          hnone (by simp [hrest])
      · obtain ⟨l, ls, hlines, hline, hlimit, hbefore⟩ := h.before.next_eq_some hnext
        rw [h.limit_eq] at hline hlimit
        exact .line hlines hline (List.suffix_refl _) ⟨hlimit, h.readable, hbefore⟩
  | cons arrival incoming ih =>
      rw [receive]
      rcases hnext : decoder.next with ⟨_ | line, decoder'⟩
      · obtain ⟨hlimit, hbefore, -⟩ := h.before.next_eq_none hnext
        rw [h.limit_eq] at hlimit
        have hreadable : ∀ e, Arrival.failure e ∉ incoming := by
          intro e hmem
          exact h.readable e (List.mem_cons_of_mem _ hmem)
        have hlater : patient → bounded = false ∨ Arrival.lull ∉ incoming := by
          intro hp
          exact (hpatient hp).imp_right fun hnot hmem => hnot (List.mem_cons_of_mem _ hmem)
        cases arrival with
        | chunk bs =>
            have hunread : Unread limit (decoder'.feed bs) incoming rest lines :=
              ⟨hlimit, hreadable, LineDecoder.Before.feed_iff.mpr
                (by simpa [Arrival.bytes] using hbefore)⟩
            exact (ih hlater hunread).later
        | lull =>
            have hunread : Unread limit decoder' incoming rest lines :=
              ⟨hlimit, hreadable, by simpa [Arrival.bytes] using hbefore⟩
            cases bounded with
            | true => exact .nothing hunread fun hp => by simpa using hpatient hp
            | false => exact (ih hlater hunread).later
        | failure e => exact absurd List.mem_cons_self (h.readable e)
      · obtain ⟨l, ls, hlines, hline, hlimit, hbefore⟩ := h.before.next_eq_some hnext
        rw [h.limit_eq] at hline hlimit
        exact .line hlines hline (List.suffix_refl _) ⟨hlimit, h.readable, hbefore⟩

def reading (limit : Nat) (l : Bytes) : Status :=
  Status.parse (Bytes.show (l.take limit))

/-- A line that settles nothing. -/
def IsRemark (limit : Nat) (l : Bytes) : Prop :=
  ∃ text, reading limit l = .diagnostic text

/-- The reply to a caller who waited for an answer. -/
def replyOf (index : Nat) : Status → Reply
  | .ok => .done
  | .error message => .failed (.reported index message)
  | .diagnostic _ => .never

variable {χ : Type}

def reader (w : ProcessWorker χ) (decoder : LineDecoder) (incoming : List Arrival) :
    ProcessWorker χ :=
  { w with decoder, incoming }

/-- What a wait for an answer has led to: remarks were passed over, and then the answer was read, or
the caller left. -/
inductive Answered (limit : Nat) (patient : Prop) (w : ProcessWorker χ) (rest : Bytes)
    (lines : List Bytes) : Reply × ProcessWorker χ → Prop where
  | answer {decoder : LineDecoder} {incoming : List Arrival} {remarks ls : List Bytes} {l : Bytes}
      (hlines : lines = remarks ++ l :: ls) (hremarks : ∀ r ∈ remarks, IsRemark limit r)
      (hanswer : ¬ IsRemark limit l) (hsuffix : incoming <:+ w.incoming)
      (hunread : Unread limit decoder incoming rest ls) :
      Answered limit patient w rest lines
        (replyOf w.index (reading limit l), { w.reader decoder incoming with state := .idle })
  | never {decoder : LineDecoder} {incoming : List Arrival} {remarks ls : List Bytes}
      (hlines : lines = remarks ++ ls) (hremarks : ∀ r ∈ remarks, IsRemark limit r)
      (hunread : Unread limit decoder incoming rest ls) (hnone : patient → rest = [] → ls = []) :
      Answered limit patient w rest lines (.never, w.reader decoder incoming)

theorem Answered.remark {w : ProcessWorker χ} {r : Bytes}
    {result : Reply × ProcessWorker χ} (hr : IsRemark limit r) (hsuffix : incoming <:+ w.incoming)
    (h : Answered limit patient (w.reader decoder incoming) rest lines result) :
    Answered limit patient w rest (r :: lines) result := by
  cases h with
  | answer hlines hremarks hanswer hsuffix' hunread =>
      exact .answer (by rw [hlines, List.cons_append]) (by simpa [hr] using hremarks) hanswer
        (hsuffix'.trans hsuffix) hunread
  | never hlines hremarks hunread hnone =>
      exact .never (by rw [hlines, List.cons_append]) (by simpa [hr] using hremarks) hunread hnone

theorem awaitStatus_answered {w : ProcessWorker χ} (hopen : w.ended = false)
    (hpatient : patient → bounded = false ∨ Arrival.lull ∉ w.incoming)
    (h : Unread limit w.decoder w.incoming rest lines) :
    Answered limit patient w rest lines (w.awaitStatus bounded) := by
  induction hn : unreadOf w.decoder w.incoming using Nat.strongRecOn generalizing w lines with
  | _ n ih =>
      have hwaited : Waited limit patient w.incoming rest lines
          (receive bounded w.ended w.decoder w.incoming) := by
        rw [hopen]
        exact receive_waited hpatient h
      unfold awaitStatus
      split
      · next line decoder incoming hreceive =>
          rw [hreceive] at hwaited
          cases hwaited with
          | @line _ _ _ l ls hlines hline hsuffix hunread =>
              have hparse : Status.parse line.bytes.show = reading limit l := by rw [hline, reading]
              subst hlines
              have hanswered : Unread limit decoder incoming rest ls → ¬ IsRemark limit l →
                  Answered limit patient w rest (l :: ls) (replyOf w.index (reading limit l),
                    { w.reader decoder incoming with state := .idle }) := by
                intro hunread hanswer
                exact .answer (List.nil_append _).symm (by simp) hanswer hsuffix hunread
              split
              · next hok =>
                  have hread := hparse.symm.trans hok
                  have hanswer : ¬ IsRemark limit l := by simp [IsRemark, hread]
                  have := hanswered hunread hanswer
                  rwa [hread] at this
              · next message herror =>
                  have hread := hparse.symm.trans herror
                  have hanswer : ¬ IsRemark limit l := by simp [IsRemark, hread]
                  have := hanswered hunread hanswer
                  rwa [hread] at this
              · next text hdiagnostic =>
                  have hless := unreadOf_lt_of_receive hreceive
                  have hlater : patient → bounded = false ∨ Arrival.lull ∉ incoming := by
                    intro hp
                    exact (hpatient hp).imp_right fun hnot hmem => hnot (hsuffix.subset hmem)
                  exact .remark ⟨text, hparse.symm.trans hdiagnostic⟩ hsuffix
                    (ih _ (hn ▸ hless) hopen hlater hunread rfl)
      · next decoder incoming hreceive =>
          rw [hreceive] at hwaited
          cases hwaited
      · next e decoder incoming hreceive =>
          rw [hreceive] at hwaited
          cases hwaited
      · next decoder incoming hreceive =>
          rw [hreceive] at hwaited
          cases hwaited with
          | nothing hunread hnone => exact .never (List.nil_append _).symm (by simp) hunread hnone

end ProcessWorker

end MapReduce
