import MapReduce.Copy
import MapReduce.Proofs.Sink

/-!
# Copying to writers

Copying writes what is read, up to the first failure on either side. Whatever the writer is and by
which way the blocks come to it, what arrives is the beginning of what was read that fits.
-/

namespace MapReduce

/-! ### Copying -/

section

variable {W : Type} {given : Sink → Bytes → W → Prop} {arrived : W → Bytes}
  {write : W → Bytes → Except IoError Unit × W} {out : Sink} {bs : Bytes} {w : W}

/-- What has come of copying bytes to a writer: all of them have been written, and either the copying
went well or it failed behind them; or they do not fit. -/
inductive Copied (given : Sink → Bytes → W → Prop) (arrived : W → Bytes) (out : Sink) (bs : Bytes)
    (count : Nat) : Option IoError → Except IoError Nat × W → Prop where
  | whole {w : W} (h : given out bs w) : Copied given arrived out bs count none (.ok count, w)
  | broken {w : W} {e : IoError} (h : given out bs w) :
      Copied given arrived out bs count (some e) (.error e, w)
  | full {w : W} {failure : Option IoError} (hroom : ¬ out.HasRoom bs.length)
      (h : arrived w = out.contents ++ out.fitting bs) :
      Copied given arrived out bs count failure (.error out.whenFull, w)

/-- A way to write that keeps account of what has been written. -/
structure Faithful (given : Sink → Bytes → W → Prop) (arrived : W → Bytes)
    (write : W → Bytes → Except IoError Unit × W) : Prop where
  ok {out : Sink} {bs more : Bytes} {w w' : W} (h : given out bs w)
    (hok : write w more = (.ok (), w')) : given out (bs ++ more) w'
  error {out : Sink} {bs more : Bytes} {w w' : W} {e : IoError} (h : given out bs w)
    (herror : write w more = (.error e, w')) :
    e = out.whenFull ∧ ¬ out.HasRoom (bs ++ more).length
      ∧ arrived w' = out.contents ++ out.fitting (bs ++ more)

theorem Faithful.copyBlocks (hwrite : Faithful given arrived write) (h : given out bs w)
    (failure : Option IoError) (count : Nat) (blocks : List Bytes) :
    Copied given arrived out (bs ++ blocks.flatten) (count + blocks.flatten.length) failure
      (Readout.copyBlocks write failure count w blocks) := by
  induction blocks generalizing bs w count with
  | nil =>
      rw [List.flatten_nil, List.append_nil]
      cases failure with
      | none => exact .whole h
      | some e => exact .broken h
  | cons block rest ih =>
      rw [List.flatten_cons, ← List.append_assoc]
      rcases hone : write w block with ⟨e | _, w'⟩
      · obtain ⟨rfl, hroom, harrived⟩ := hwrite.error h hone
        simp only [Readout.copyBlocks, hone]
        rw [← Sink.fitting_append_of_not_hasRoom hroom rest.flatten] at harrived
        exact .full (Sink.not_hasRoom_append hroom rest.flatten) harrived
      · have hrest := ih (hwrite.ok h hone) (count + block.length)
        rw [Nat.add_assoc, ← List.length_append] at hrest
        simpa only [Readout.copyBlocks, hone] using hrest

theorem Faithful.copy (hwrite : Faithful given arrived write) (h : given out bs w) (r : Readout) :
    Copied given arrived out (bs ++ r.bytes) r.bytes.length r.failure (r.copy write w) := by
  have hblocks := hwrite.copyBlocks h r.failure 0 r.blocks
  rwa [Nat.zero_add] at hblocks

theorem Sink.faithful_write : Faithful Sink.Took Sink.contents Sink.write where
  ok h hok := h.write_ok hok
  error h herror := h.write_error herror

theorem BlockWriter.faithful_write :
    Faithful BlockWriter.Given (fun w => w.closed.contents) BlockWriter.write where
  ok h hok := h.write_ok hok
  error h herror := h.write_error herror

/-- What is moved past the empty buffer arrives behind what was in it. -/
theorem BlockWriter.Given.copy {w : BlockWriter} (h : Given out bs w) (r : Readout) :
    Copied Given (fun w => w.closed.contents) out (bs ++ r.bytes) r.bytes.length r.failure
      (w.copy r) := by
  unfold BlockWriter.copy
  split
  · rcases hrelease : w.release with ⟨e | _, w'⟩
    · obtain ⟨rfl, hroom, hcontents, hsize⟩ := h.release_error hrelease
      refine .full (Sink.not_hasRoom_append hroom r.bytes) ?_
      rw [closed_of_heldSize hsize, hcontents, Sink.fitting_append_of_not_hasRoom hroom]
    · obtain ⟨htook, hheld, hsize⟩ := h.release_ok hrelease
      have hcopied := Sink.faithful_write.copy htook r
      have hgiven : ∀ sink, out.Took (bs ++ r.bytes) sink →
          Given out (bs ++ r.bytes) { w' with sink } :=
        fun _ hsink => given_of_took hsink hheld hsize
      have hclosed : ∀ sink, closed { w' with sink } = sink := fun sink => closed_of_heldSize hsize
      dsimp only
      generalize r.copy Sink.write w'.sink = copied at hcopied
      generalize r.failure = failure at hcopied
      cases hcopied with
      | whole htook' => exact .whole (hgiven _ htook')
      | broken htook' => exact .broken (hgiven _ htook')
      | full hroom harrived => exact .full hroom ((congrArg Sink.contents (hclosed _)).trans harrived)
  · exact faithful_write.copy h r

/-! ### Writers -/

/-- What is known of a writer in front of a sink: when bytes have been written to it, what arrives of
them when it is given up, and what copying and flushing make of this. -/
structure WriterSpec (W : Type) [Writer W] where
  given : Sink → Bytes → W → Prop
  arrived : W → Bytes
  arrived_of_given {out : Sink} {bs : Bytes} {w : W} (h : given out bs w) :
    arrived w = out.contents ++ out.fitting bs
  copy {out : Sink} {bs : Bytes} {w : W} (h : given out bs w) (r : Readout) :
    Copied given arrived out (bs ++ r.bytes) r.bytes.length r.failure (Writer.copy r w)
  flush {out : Sink} {bs : Bytes} {w : W} (h : given out bs w) :
    (Writer.flush w).1 = (if out.HasRoom bs.length then out.flush else .error out.whenFull)
      ∧ arrived (Writer.flush w).2 = out.contents ++ out.fitting bs

def Sink.spec : WriterSpec Sink where
  given := Took
  arrived := contents
  arrived_of_given h := h.arrived
  copy h r := faithful_write.copy h r
  flush h := ⟨h.flush.trans (if_pos h.fits).symm, h.arrived⟩

def BlockWriter.spec : WriterSpec BlockWriter where
  given := Given
  arrived w := w.closed.contents
  arrived_of_given h := h.arrived
  copy h r := h.copy r
  flush {out bs w} h := by
    have hflush : Writer.flush w = w.flush := rfl
    rw [hflush, BlockWriter.flush]
    rcases hrelease : w.release with ⟨e | _, w'⟩
    · obtain ⟨rfl, hroom, hcontents, hsize⟩ := h.release_error hrelease
      exact ⟨(if_neg hroom).symm, by rw [closed_of_heldSize hsize]; exact hcontents⟩
    · obtain ⟨htook, -, hsize⟩ := h.release_ok hrelease
      exact ⟨htook.flush.trans (if_pos htook.fits).symm,
        by rw [closed_of_heldSize hsize]; exact htook.arrived⟩

end

end MapReduce
