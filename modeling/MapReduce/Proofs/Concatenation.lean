import MapReduce.Combine
import MapReduce.Proofs.Copy
import MapReduce.Proofs.FileTree

/-!
# Joining is concatenation

Files are copied to a writer one after the other, up to the first that cannot be read to its end. What
arrives is what these files hold, one after the other, and behind them what the last one gave before it
failed; or the beginning of this if it does not all fit. All is well exactly if every file can be read
to its end, all of it fits and the writer can be flushed. It makes no difference whether the blocks that
are read go through a buffer or past it.
-/

namespace MapReduce

open FileTree (Rewritten Touched)

theorem FileTree.eq_of_create_device {t t' : FileTree} {path : Path} {place : Location}
    (h : t.create path = .ok (place, t')) (hdevice : t.get? place = some .fullDevice) : t' = t := by
  obtain ⟨hresolve, -⟩ := FileTree.create_eq_ok h
  unfold create at h
  split at h
  · obtain ⟨_, -, h⟩ := bind_eq_ok.mp h
    cases h
  · obtain ⟨place', hresolve', h⟩ := bind_eq_ok.mp h
    obtain rfl := Except.ok.inj (hresolve.symm.trans hresolve')
    rw [hdevice] at h
    exact (Prod.mk.inj (Except.ok.inj h)).2.symm

namespace Combine

variable {medium : Medium} {t : FileTree} {path : Path} {paths before rest : List Path}
  {contents : List Bytes} {bs part : Bytes} {e : IoError} {failure : Option IoError}

/-! ### Sources -/

/-- What a file gives, and what is said about it if it is not read to its end. -/
def source (medium : Medium) (t : FileTree) (path : Path) : Bytes × Option IoError :=
  match t.openFile path with
  | .error e => ([], some (e.annotate "open" path))
  | .ok place =>
    let r := medium.readout place (t.read place)
    (r.bytes, r.failure.map (IoError.annotate "copy" path))

/-- What the files give, up to the first that is not read to its end. -/
def leading (medium : Medium) (t : FileTree) : List Path → Bytes
  | [] => []
  | path :: rest =>
    match source medium t path with
    | (bs, none) => bs ++ leading medium t rest
    | (bs, some _) => bs

/-- The files hold these bytes, and each is read to its end. -/
def Reads (medium : Medium) (t : FileTree) (paths : List Path) (contents : List Bytes) : Prop :=
  List.Forall₂ (fun path bs => t.openFile path >>= t.read = .ok bs
    ∧ (source medium t path).2 = none) paths contents

theorem source_prefix (h : t.openFile path >>= t.read = .ok bs) : (source medium t path).1 <+: bs := by
  obtain ⟨place, hopen, hread⟩ := bind_eq_ok.mp h
  have hreading := medium.isOf place (.ok bs)
  simp only [source, hopen, hread]
  exact hreading.1

theorem source_whole :
    source medium t path = (bs, none)
      ↔ t.openFile path >>= t.read = .ok bs ∧ (source medium t path).2 = none := by
  constructor
  · intro h
    refine ⟨?_, congrArg Prod.snd h⟩
    unfold source at h
    split at h
    · cases (Prod.mk.inj h).2
    · next place hopen =>
        obtain ⟨hbytes, hfailure⟩ := Prod.mk.inj h
        have hnone := Option.map_eq_none_iff.mp hfailure
        have hreading := medium.isOf place (t.read place)
        rw [hopen]
        change t.read place = .ok bs
        rcases hread : t.read place with e | stored
        · rw [hread] at hreading hnone
          cases hnone.symm.trans hreading.2
        · rw [hread] at hreading hnone hbytes
          rw [← hbytes, hreading.2 hnone]
  · rintro ⟨h, hfailure⟩
    obtain ⟨place, hopen, hread⟩ := bind_eq_ok.mp h
    have hreading := medium.isOf place (.ok bs)
    simp only [source, hopen, hread] at hfailure ⊢
    rw [Option.map_eq_none_iff] at hfailure
    rw [hreading.2 hfailure, hfailure, Option.map_none]

theorem Reads.cons (hpath : source medium t path = (bs, none)) (hrest : Reads medium t rest contents) :
    Reads medium t (path :: rest) (bs :: contents) :=
  List.Forall₂.cons (source_whole.mp hpath) hrest

theorem leading_append (hreads : Reads medium t before contents) (rest : List Path) :
    leading medium t (before ++ rest) = contents.flatten ++ leading medium t rest := by
  induction hreads with
  | nil => rfl
  | cons hpath _ ih =>
      rw [List.cons_append, leading, source_whole.mpr hpath]
      dsimp only
      rw [ih, List.flatten_cons, List.append_assoc]

theorem Reads.leading (hreads : Reads medium t paths contents) :
    leading medium t paths = contents.flatten := by
  simpa [Combine.leading] using leading_append hreads []

theorem leading_of_broken (hreads : Reads medium t before contents)
    (hpath : source medium t path = (part, some e)) (rest : List Path) :
    leading medium t (before ++ path :: rest) = contents.flatten ++ part := by
  rw [leading_append hreads, leading, hpath]

/-- Either all files are read to their ends, or there is a first one that is not. -/
theorem reads_or_broken (medium : Medium) (t : FileTree) (paths : List Path) :
    (∃ contents, Reads medium t paths contents) ∨
      ∃ before path rest contents part e, paths = before ++ path :: rest
        ∧ Reads medium t before contents ∧ source medium t path = (part, some e) := by
  induction paths with
  | nil => exact .inl ⟨[], .nil⟩
  | cons path paths ih =>
      rcases hpath : source medium t path with ⟨bs, _ | e⟩
      · rcases ih with ⟨contents, hreads⟩ | ⟨before, bad, rest, contents, part, e, rfl, hreads, hbad⟩
        · exact .inl ⟨bs :: contents, hreads.cons hpath⟩
        · exact .inr ⟨path :: before, bad, rest, bs :: contents, part, e, rfl, hreads.cons hpath, hbad⟩
      · exact .inr ⟨[], path, paths, [], bs, e, rfl, .nil, hpath⟩

/-! ### Copying -/

section

variable {W : Type} [Writer W] {S : WriterSpec W} {out : Sink} {w : W} {total : Nat}

/-- What comes of the first file: it is copied and the others follow, or it is not read to its end, or
the writer cannot take it. -/
inductive FirstCopied (S : WriterSpec W) (medium : Medium) (t : FileTree) (out : Sink)
    (bs part : Bytes) (total : Nat) (path : Path) (rest : List Path) :
    Option IoError → Except IoError Nat × W → Prop where
  | whole {w : W} (h : S.given out (bs ++ part) w) :
      FirstCopied S medium t out bs part total path rest none
        (copyAll medium t (total + part.length) w rest)
  | broken {w : W} {e : IoError} (h : S.given out (bs ++ part) w) :
      FirstCopied S medium t out bs part total path rest (some e) (.error e, w)
  | full {w : W} {failure : Option IoError} (hroom : ¬ out.HasRoom (bs ++ part).length)
      (h : S.arrived w = out.contents ++ out.fitting (bs ++ part)) :
      FirstCopied S medium t out bs part total path rest failure
        (.error (out.whenFull.annotate "copy" path), w)

theorem copyAll_cons (h : S.given out bs w) (hpath : source medium t path = (part, failure))
    (total : Nat) (rest : List Path) :
    FirstCopied S medium t out bs part total path rest failure
      (copyAll medium t total w (path :: rest)) := by
  rw [copyAll]
  unfold source at hpath
  rcases hopen : t.openFile path with e | place
  · rw [hopen] at hpath
    obtain ⟨rfl, rfl⟩ := Prod.mk.inj hpath
    exact .broken (by rwa [List.append_nil])
  · rw [hopen] at hpath
    obtain ⟨rfl, rfl⟩ := Prod.mk.inj hpath
    have hcopied := S.copy h (medium.readout place (t.read place))
    dsimp only
    generalize Writer.copy (medium.readout place (t.read place)) w = copied at hcopied
    generalize (medium.readout place (t.read place)).failure = ended at hcopied
    cases hcopied with
    | whole h' => exact .whole h'
    | broken h' => exact .broken h'
    | full hroom harrived => exact .full hroom harrived

theorem arrived_copyAll (medium : Medium) (t : FileTree) (h : S.given out bs w) (paths : List Path)
    (total : Nat) :
    S.arrived (copyAll medium t total w paths).2
      = out.contents ++ out.fitting (bs ++ leading medium t paths) := by
  induction paths generalizing bs total w with
  | nil =>
      obtain ⟨-, harrived⟩ := S.flush h
      rw [copyAll, leading, List.append_nil, ← harrived]
      rcases Writer.flush w with ⟨e | _, w'⟩ <;> rfl
  | cons path paths ih =>
      rcases hpath : source medium t path with ⟨part, failure⟩
      have hfirst := copyAll_cons h hpath total paths
      rw [leading, hpath]
      generalize copyAll medium t total w (path :: paths) = ended at hfirst
      cases hfirst with
      | whole h' => rw [ih h', List.append_assoc]
      | broken h' => exact S.arrived_of_given h'
      | full hroom harrived =>
          cases failure with
          | none =>
              dsimp only
              rw [← List.append_assoc, Sink.fitting_append_of_not_hasRoom hroom, harrived]
          | some e => exact harrived

/-- Files that are read and fit are behind the copying once they are copied. -/
theorem copyAll_append (h : S.given out bs w) (hreads : Reads medium t before contents)
    (hroom : out.HasRoom (bs ++ contents.flatten).length) (total : Nat) (rest : List Path) :
    ∃ w', S.given out (bs ++ contents.flatten) w' ∧ copyAll medium t total w (before ++ rest)
      = copyAll medium t (total + contents.flatten.length) w' rest := by
  induction hreads generalizing bs total w with
  | nil => exact ⟨w, by rwa [List.flatten_nil, List.append_nil], rfl⟩
  | @cons path part before contents hpath _ ih =>
      rw [List.flatten_cons, ← List.append_assoc] at hroom ⊢
      have hfirst := copyAll_cons h (source_whole.mpr hpath) total (before ++ rest)
      rw [List.cons_append]
      generalize copyAll medium t total w (path :: (before ++ rest)) = ended at hfirst
      cases hfirst with
      | whole h' =>
          obtain ⟨w', hw', hcopy⟩ := ih h' hroom (total + part.length)
          refine ⟨w', hw', ?_⟩
          rw [hcopy, List.length_append, Nat.add_assoc]
      | full hfull _ => exact absurd hroom (Sink.not_hasRoom_append hfull _)

theorem copyAll_nil (h : S.given out bs w) (total : Nat) :
    (copyAll medium t total w []).1
      = if out.HasRoom bs.length then out.flush.map fun _ => total else .error out.whenFull := by
  obtain ⟨hflush, -⟩ := S.flush h
  rw [copyAll]
  rcases hended : Writer.flush w with ⟨e | _, w'⟩
  all_goals
    rw [hended] at hflush
    by_cases hroom : out.HasRoom bs.length
  · rw [if_pos hroom] at hflush ⊢
    rw [← hflush]
    rfl
  · rw [if_neg hroom] at hflush ⊢
    rw [Except.error.inj hflush]
  · rw [if_pos hroom] at hflush ⊢
    rw [← hflush]
    rfl
  · rw [if_neg hroom] at hflush
    cases hflush

theorem copyAll_whole (h : S.given out bs w) (hreads : Reads medium t paths contents)
    (hroom : out.HasRoom (bs ++ contents.flatten).length) (total : Nat) :
    (copyAll medium t total w paths).1 = out.flush.map fun _ => total + contents.flatten.length := by
  obtain ⟨w', h', hcopy⟩ := copyAll_append h hreads hroom total []
  rw [List.append_nil] at hcopy
  rw [hcopy, copyAll_nil h', if_pos hroom]

theorem copyAll_broken (h : S.given out bs w) (hreads : Reads medium t before contents)
    (hpath : source medium t path = (part, some e))
    (hroom : out.HasRoom (bs ++ (contents.flatten ++ part)).length) (total : Nat) (rest : List Path) :
    (copyAll medium t total w (before ++ path :: rest)).1 = .error e := by
  rw [← List.append_assoc] at hroom
  obtain ⟨w', h', hcopy⟩ := copyAll_append h hreads
    (hroom.mono (by simp)) total (path :: rest)
  have hfirst := copyAll_cons h' hpath (total + contents.flatten.length) rest
  rw [hcopy]
  generalize copyAll medium t _ w' (path :: rest) = ended at hfirst
  cases hfirst with
  | broken => rfl
  | full hfull => exact absurd hroom hfull

theorem copyAll_noRoom (h : S.given out bs w)
    (hroom : ¬ out.HasRoom (bs ++ leading medium t paths).length) (total n : Nat) :
    (copyAll medium t total w paths).1 ≠ .ok n := by
  induction paths generalizing bs total w with
  | nil =>
      rw [leading, List.append_nil] at hroom
      rw [copyAll_nil h, if_neg hroom]
      simp
  | cons path paths ih =>
      rcases hpath : source medium t path with ⟨part, failure⟩
      have hfirst := copyAll_cons h hpath total paths
      rw [leading, hpath] at hroom
      generalize copyAll medium t total w (path :: paths) = ended at hfirst
      cases hfirst with
      | whole h' => exact ih h' (by rwa [List.append_assoc]) _
      | broken => simp
      | full => simp

theorem flush_map_eq_ok_iff {n m : Nat} :
    (out.flush.map fun _ => m) = .ok n ↔ out.flushError = none ∧ n = m := by
  cases hflush : out.flushError <;> simp [Sink.flush, hflush, Except.map, eq_comm]

theorem copyAll_eq_ok_iff (h : S.given out bs w) {n : Nat} :
    (copyAll medium t total w paths).1 = .ok n ↔
      ∃ contents, Reads medium t paths contents ∧ out.HasRoom (bs ++ contents.flatten).length
        ∧ out.flushError = none ∧ n = total + contents.flatten.length := by
  constructor
  · intro hok
    by_cases hroom : out.HasRoom (bs ++ leading medium t paths).length
    · rcases reads_or_broken medium t paths with
        ⟨contents, hreads⟩ | ⟨before, path, rest, contents, part, e, rfl, hreads, hpath⟩
      · rw [hreads.leading] at hroom
        rw [copyAll_whole h hreads hroom, flush_map_eq_ok_iff] at hok
        exact ⟨contents, hreads, hroom, hok⟩
      · rw [leading_of_broken hreads hpath] at hroom
        rw [copyAll_broken h hreads hpath hroom] at hok
        cases hok
    · exact absurd hok (copyAll_noRoom h hroom total n)
  · rintro ⟨contents, hreads, hroom, hflush⟩
    rw [copyAll_whole h hreads hroom, flush_map_eq_ok_iff]
    exact hflush

end

/-- What has come of joining files in front of a sink: what the call gave, and what has arrived. -/
structure Concatenated (medium : Medium) (t : FileTree) (inputs : List Path) (out : Sink)
    (result : Except IoError Nat) (accepted : Bytes) : Prop where
  accepted_prefix : accepted <+: leading medium t inputs
  /-- All is well exactly if every file is read to its end, all of it fits and the sink is flushed. -/
  ok_iff (n : Nat) : result = .ok n ↔
    ∃ contents, Reads medium t inputs contents ∧ out.HasRoom contents.flatten.length
      ∧ out.flushError = none ∧ n = contents.flatten.length
  accepted_whole {contents : List Bytes} (hreads : Reads medium t inputs contents)
    (hroom : out.HasRoom contents.flatten.length) : accepted = contents.flatten
  /-- The first file that is not read to its end is named, and what it gave has arrived. -/
  broken {before rest : List Path} {path : Path} {contents : List Bytes} {part : Bytes} {e : IoError}
    (hinputs : inputs = before ++ path :: rest) (hreads : Reads medium t before contents)
    (hpath : source medium t path = (part, some e))
    (hroom : out.HasRoom (contents.flatten ++ part).length) :
    result = .error e ∧ accepted = contents.flatten ++ part
  /-- A file that cannot be opened gives nothing. -/
  unopened {before rest : List Path} {path : Path} {contents : List Bytes} {e : IoError}
    (hinputs : inputs = before ++ path :: rest) (hreads : Reads medium t before contents)
    (hpath : t.openFile path = .error e) (hroom : out.HasRoom contents.flatten.length) :
    result = .error (e.annotate "open" path) ∧ accepted = contents.flatten
  unflushed {contents : List Bytes} {e : IoError} (hreads : Reads medium t inputs contents)
    (hroom : out.HasRoom contents.flatten.length) (hflush : out.flushError = some e) :
    result = .error e

theorem concatenated_copyAll {W : Type} [Writer W] (S : WriterSpec W) {out : Sink} {w : W}
    (h : S.given out [] w) (inputs : List Path) :
    Concatenated medium t inputs out (copyAll medium t 0 w inputs).1
      (out.fitting (leading medium t inputs)) where
  accepted_prefix := out.fitting_prefix _
  ok_iff n := by
    rw [copyAll_eq_ok_iff h]
    simp only [List.nil_append, Nat.zero_add]
  accepted_whole hreads hroom := by rw [hreads.leading, hroom.fitting]
  broken hinputs hreads hpath hroom := by
    subst hinputs
    rw [leading_of_broken hreads hpath]
    exact ⟨copyAll_broken h hreads hpath hroom 0 _, hroom.fitting⟩
  unopened {before rest path contents e} hinputs hreads hpath hroom := by
    subst hinputs
    have hsource : source medium t path = ([], some (e.annotate "open" path)) := by
      simp only [source, hpath]
    rw [leading_of_broken hreads hsource, List.append_nil]
    exact ⟨copyAll_broken h hreads hsource (by rwa [List.append_nil]) 0 _, hroom.fitting⟩
  unflushed hreads hroom hflush := by
    rw [copyAll_whole h hreads hroom, Sink.flush, hflush]
    rfl

/-! ### Joining into a file -/

variable {inputs : List Path} {output : Path} {place : Location} {t' opened : FileTree} {n : Nat}

/-- Another file gives what it gave before the output was touched. -/
theorem source_of_touched (medium : Medium) (htouched : Touched [output] t t')
    (hapart : t.Separate path output) :
    (source medium t' path).1 = (source medium t path).1
      ∧ ((source medium t' path).2 = none ↔ (source medium t path).2 = none) := by
  have hpaths : ∀ p ∈ [output], t.Separate path p := by simpa using hapart
  have hpaths' : ∀ p ∈ [output], t'.Separate path p := by simpa using htouched.separate hapart
  rcases hopen : t.openFile path with e | stop
  · rcases hopen' : t'.openFile path with e' | stop
    · simp [source, hopen, hopen']
    · rw [htouched.symm.openFile hopen' hpaths'] at hopen
      cases hopen
  · obtain ⟨places, hstop, hrew⟩ :=
      htouched.rewritten_of_separate (FileTree.openFile_eq_ok hopen) hpaths
    simp [source, hopen, hrew.openFile hstop hopen, hrew.read_of_notMem hstop]

theorem reads_of_touched (htouched : Touched [output] t t')
    (hinputs : ∀ input ∈ inputs, t.Separate input output) :
    Reads medium t' inputs contents ↔ Reads medium t inputs contents := by
  induction inputs generalizing contents with
  | nil => simp [Reads]
  | cons input inputs ih =>
      rw [List.forall_mem_cons] at hinputs
      obtain ⟨hbytes, hended⟩ := source_of_touched medium htouched hinputs.1
      have hwhole (bs : Bytes) :
          source medium t' input = (bs, none) ↔ source medium t input = (bs, none) := by
        rw [Prod.ext_iff, Prod.ext_iff, hbytes]
        exact and_congr_right fun _ => hended
      cases contents with
      | nil => simp [Reads]
      | cons bs contents =>
          have hrest : Reads medium t' inputs contents ↔ Reads medium t inputs contents := ih hinputs.2
          simp only [Reads, ← source_whole, List.forall₂_cons] at hrest ⊢
          rw [hwhole, hrest]

theorem leading_of_touched (htouched : Touched [output] t t')
    (hinputs : ∀ input ∈ inputs, t.Separate input output) :
    leading medium t' inputs = leading medium t inputs := by
  induction inputs with
  | nil => rfl
  | cons input inputs ih =>
      rw [List.forall_mem_cons] at hinputs
      obtain ⟨hbytes, hended⟩ := source_of_touched medium htouched hinputs.1
      rw [leading, leading, ih hinputs.2]
      rcases hsource : source medium t input with ⟨bs, _ | e⟩ <;>
        rcases hsource' : source medium t' input with ⟨bs', _ | e'⟩ <;>
        simp_all

theorem intoFileFrom_of_create (hcreate : t.create output = .ok (place, opened)) :
    intoFileFrom medium inputs output t
      = ((copyAll medium opened 0 (BlockWriter.ofSink (opened.sinkAt place)) inputs).1,
        opened.writeAt place 0 (copyAll medium opened 0 (BlockWriter.ofSink (opened.sinkAt place))
          inputs).2.closed.contents) := by
  rw [intoFileFrom, hcreate]
  rfl

/-- In front of an ordinary file there is always room, so all that is read arrives. -/
theorem intoFileFrom_file (medium : Medium) (hcreate : t.create output = .ok (place, opened))
    (hinputs : ∀ input ∈ inputs, t.Separate input output)
    (hordinary : t.get? place ≠ some .fullDevice) :
    (intoFileFrom medium inputs output t).2.get? place = some (.file (leading medium t inputs))
      ∧ ((intoFileFrom medium inputs output t).1 = .ok n ↔
          ∃ contents, Reads medium t inputs contents ∧ n = contents.flatten.length)
      ∧ Rewritten [place] t (intoFileFrom medium inputs output t).2 := by
  obtain ⟨hresolve, hrew, full, hholds, hfull⟩ := FileTree.create_eq_ok hcreate
  have htouched : Touched [output] t opened := .of_resolve hresolve hrew
  cases hholds with
  | device => exact absurd (hfull rfl) hordinary
  | file hempty =>
      have hsink : opened.sinkAt place = .unbounded := by simp [FileTree.sinkAt, hempty]
      have hgiven := BlockWriter.given_ofSink .unbounded
      have harrived := arrived_copyAll (S := BlockWriter.spec) medium opened hgiven inputs 0
      rw [(Sink.hasRoom_unbounded _).fitting, leading_of_touched htouched hinputs,
        Sink.contents_unbounded, List.nil_append, List.nil_append] at harrived
      have hclosed : (copyAll medium opened 0 (BlockWriter.ofSink .unbounded) inputs).2.closed.contents
          = leading medium t inputs := harrived
      rw [intoFileFrom_of_create hcreate, hsink, hclosed]
      refine ⟨?_, ?_, hrew.trans (FileTree.rewritten_writeAt _ _ _ _)⟩
      · have hwrite := FileTree.writeAt_of_file hempty (leading medium t inputs)
        rw [List.length_nil, List.nil_append] at hwrite
        rw [hwrite]
        exact FileTree.get?_put_self _ _ _
      · rw [copyAll_eq_ok_iff (S := BlockWriter.spec) hgiven]
        simp only [reads_of_touched htouched hinputs, Sink.hasRoom_unbounded,
          Sink.flushError_unbounded, true_and, Nat.zero_add]

/-- The full device takes nothing and stays as it is. -/
theorem intoFileFrom_device (medium : Medium) (inputs : List Path)
    (hcreate : t.create output = .ok (place, opened)) (hdevice : t.get? place = some .fullDevice) :
    (intoFileFrom medium inputs output t).2 = t
      ∧ ((intoFileFrom medium inputs output t).1 = .ok n ↔
          ∃ contents, Reads medium t inputs contents ∧ contents.flatten = [] ∧ n = 0) := by
  have hopened : opened = t := FileTree.eq_of_create_device hcreate hdevice
  subst hopened
  have hsink : opened.sinkAt place = .full := by simp [FileTree.sinkAt, hdevice]
  have hflush : Sink.full.flushError = none := rfl
  rw [intoFileFrom_of_create hcreate, hsink]
  constructor
  · simp [FileTree.writeAt, hdevice]
  · rw [copyAll_eq_ok_iff (S := BlockWriter.spec) (BlockWriter.given_ofSink .full)]
    simp only [List.nil_append, Sink.hasRoom_full, hflush, true_and, Nat.zero_add]
    refine exists_congr fun contents => and_congr_right fun _ => ?_
    rw [List.length_eq_zero_iff]
    exact and_congr_right fun hnil => by rw [hnil, List.length_nil]

/-- When files have been joined, the output holds what they hold; the full device does if that is
nothing. -/
theorem holds_of_intoFileFrom (hinputs : ∀ input ∈ inputs, t.Separate input output)
    (hok : intoFileFrom medium inputs output t = (.ok n, t')) :
    ∃ place opened full contents, t.create output = .ok (place, opened)
      ∧ Reads medium t inputs contents ∧ n = contents.flatten.length
      ∧ t'.Holds place full contents.flatten ∧ Rewritten [place] t t' := by
  rcases hcreate : t.create output with e | ⟨place, opened⟩
  · rw [intoFileFrom, hcreate] at hok
    cases hok
  · have hresult := congrArg Prod.fst hok
    have hleft := congrArg Prod.snd hok
    by_cases hdevice : t.get? place = some .fullDevice
    · obtain ⟨hsame, hiff⟩ := intoFileFrom_device (n := n) medium inputs hcreate hdevice
      obtain ⟨contents, hreads, hnil, rfl⟩ := hiff.mp hresult
      obtain rfl : t' = t := hleft.symm.trans hsame
      refine ⟨place, opened, true, contents, rfl, hreads, by rw [hnil]; rfl, ?_, .refl _ _⟩
      rw [hnil]
      exact .device hdevice
    · obtain ⟨hget, hiff, hrew⟩ := intoFileFrom_file (n := n) medium hcreate hinputs hdevice
      obtain ⟨contents, hreads, rfl⟩ := hiff.mp hresult
      rw [hleft] at hget hrew
      rw [hreads.leading] at hget
      exact ⟨place, opened, false, contents, rfl, hreads, rfl, .file hget, hrew⟩

theorem reads_sound (h : List.Forall₂ (fun path bs => ∃ place, t.Stores path place bs) paths contents) :
    Reads .sound t paths contents := by
  refine h.imp ?_
  rintro path bs ⟨place, hstores⟩
  exact ⟨hstores.openFile_bind_read, by simp [source, Medium.sound, hstores.openFile, hstores.read]⟩

theorem intoFile_ordinary
    (hstores : List.Forall₂ (fun path bs => ∃ place, t.Stores path place bs) inputs contents)
    (houtput : t.Creatable output place) (hordinary : t.get? place ≠ some .fullDevice)
    (hinputs : ∀ input ∈ inputs, t.Separate input output) :
    ∃ count t', intoFile inputs output t = (.ok count, t')
      ∧ t'.get? place = some (.file contents.flatten) ∧ Rewritten [place] t t' := by
  obtain ⟨opened, hcreate⟩ := houtput.create
  have hreads := reads_sound hstores
  obtain ⟨hget, hiff, hrew⟩ := intoFileFrom_file (n := contents.flatten.length) .sound hcreate
    hinputs hordinary
  rw [hreads.leading] at hget
  exact ⟨_, _, Prod.ext (hiff.mpr ⟨contents, hreads, rfl⟩) rfl, hget, hrew⟩

/-- **Joining.** On any medium, the files are copied to a sink, or to a block writer in front of one, as
`Concatenated` says. Joined into an ordinary file that is none of them, they take the place of all that
was there; the full device takes nothing, and where no file can be created nothing happens. -/
theorem intoWriter_intoFile_concatenate (medium : Medium) (inputs : List Path) (out : Sink)
    (output : Path) (t : FileTree) :
    (∀ path bs, t.openFile path >>= t.read = .ok bs → (source medium t path).1 <+: bs)
    ∧ (∃ accepted, (intoWriter medium inputs out t).2.contents = out.contents ++ accepted
      ∧ Concatenated medium t inputs out (intoWriter medium inputs out t).1 accepted)
    ∧ (∃ accepted, (intoWriter medium inputs (BlockWriter.ofSink out) t).2.closed.contents
          = out.contents ++ accepted
      ∧ Concatenated medium t inputs out (intoWriter medium inputs (BlockWriter.ofSink out) t).1
          accepted)
    ∧ (∀ e, t.create output = .error e →
        intoFileFrom medium inputs output t = (.error (e.annotate "create" output), t))
    ∧ ∀ place opened, t.create output = .ok (place, opened) →
        (∀ input ∈ inputs, t.Separate input output) →
        (t.get? place ≠ some .fullDevice →
          (intoFileFrom medium inputs output t).2.get? place = some (.file (leading medium t inputs))
          ∧ (∀ n, (intoFileFrom medium inputs output t).1 = .ok n ↔
              ∃ contents, Reads medium t inputs contents ∧ n = contents.flatten.length)
          ∧ Rewritten [place] t (intoFileFrom medium inputs output t).2)
        ∧ (t.get? place = some .fullDevice →
          (intoFileFrom medium inputs output t).2 = t
          ∧ ∀ n, (intoFileFrom medium inputs output t).1 = .ok n ↔
              ∃ contents, Reads medium t inputs contents ∧ contents.flatten = [] ∧ n = 0) := by
  refine ⟨fun path bs => source_prefix, ?_, ?_, ?_, ?_⟩
  · exact ⟨_, arrived_copyAll (S := Sink.spec) medium t out.took_nil inputs 0,
      concatenated_copyAll Sink.spec out.took_nil inputs⟩
  · exact ⟨_, arrived_copyAll (S := BlockWriter.spec) medium t (BlockWriter.given_ofSink out) inputs 0,
      concatenated_copyAll BlockWriter.spec (BlockWriter.given_ofSink out) inputs⟩
  · intro e hcreate
    rw [intoFileFrom, hcreate]
  · intro place opened hcreate hinputs
    constructor
    · intro hordinary
      obtain ⟨hget, -, hrew⟩ := intoFileFrom_file (n := 0) medium hcreate hinputs hordinary
      exact ⟨hget, fun n => (intoFileFrom_file medium hcreate hinputs hordinary).2.1, hrew⟩
    · intro hdevice
      exact ⟨(intoFileFrom_device (n := 0) medium inputs hcreate hdevice).1,
        fun n => (intoFileFrom_device medium inputs hcreate hdevice).2⟩

/-- Nothing can be read of the file `b` behind its first two bytes. -/
def cracked : Medium where
  readout place stored :=
    match stored with
    | .error e => ⟨[], some e, false⟩
    | .ok bs =>
      if place = [Bytes.ofString "b"] then ⟨[bs.take 2], some (.code 5), false⟩
      else ⟨[bs], none, false⟩
  isOf place stored := by
    cases stored with
    | error e => simp [Readout.IsOf, Readout.bytes]
    | ok bs =>
        by_cases hplace : place = [Bytes.ofString "b"]
        · simp [hplace, Readout.IsOf, Readout.bytes, List.take_prefix]
        · simp [hplace, Readout.IsOf, Readout.bytes]

/-- Three files, and an output that holds more than they do. -/
def threeFiles : FileTree :=
  ⟨[], [([], .directory), ([Bytes.ofString "a"], .file (Bytes.ofString "b 1\n")),
    ([Bytes.ofString "b"], .file (Bytes.ofString "c 1\n")),
    ([Bytes.ofString "c"], .file (Bytes.ofString "a 2\nc 1")),
    ([Bytes.ofString "out"], .file (Bytes.ofString "what was there before\n"))]⟩

def inOrder : List Path :=
  ["a", "b", "c"].map Bytes.ofString

theorem concatenate_threeFiles :
    (∀ input ∈ inOrder, threeFiles.Separate input (Bytes.ofString "out"))
      ∧ (intoFileFrom cracked inOrder (Bytes.ofString "out") threeFiles).2.get? [Bytes.ofString "out"]
          = some (.file (Bytes.ofString "b 1\nc "))
      ∧ ∀ n, (intoFileFrom cracked inOrder (Bytes.ofString "out") threeFiles).1 ≠ .ok n := by
  have hapart : ∀ input ∈ inOrder, threeFiles.Separate input (Bytes.ofString "out") := by
    decide +kernel
  have hcreate : threeFiles.create (Bytes.ofString "out") = .ok ([Bytes.ofString "out"],
      threeFiles.put [Bytes.ofString "out"] (.file [])) := by
    decide +kernel
  have hleading : leading cracked threeFiles inOrder = Bytes.ofString "b 1\nc " := by
    decide +kernel
  obtain ⟨hget, hok, -⟩ := ((intoWriter_intoFile_concatenate cracked inOrder .full
    (Bytes.ofString "out") threeFiles).2.2.2.2 _ _ hcreate hapart).1 (by decide +kernel)
  refine ⟨hapart, hleading ▸ hget, fun n hn => ?_⟩
  obtain ⟨contents, hreads, -⟩ := (hok n).mp hn
  have hbroken : (source cracked threeFiles (Bytes.ofString "b")).2 ≠ none := by decide +kernel
  cases hreads with
  | cons _ hreads =>
      cases hreads with
      | cons hsecond _ => exact hbroken hsecond.2

/-- What a file gives before it fails arrives, although nothing precedes it; and joined into itself under
another path, a file is emptied before it is read. -/
theorem not_concatenated_threeFiles :
    (source cracked threeFiles (Bytes.ofString "b")).2 ≠ none
      ∧ (intoWriter cracked [Bytes.ofString "b"] Sink.unbounded threeFiles).2.contents
          = Bytes.ofString "c "
      ∧ ¬ Bytes.ofString "c " <+: []
      ∧ Bytes.ofString "./a" ≠ Bytes.ofString "a"
      ∧ (intoFile [Bytes.ofString "a"] (Bytes.ofString "./a") threeFiles).1 = .ok 0
      ∧ (intoFile [Bytes.ofString "a"] (Bytes.ofString "./a") threeFiles).2.get? [Bytes.ofString "a"]
          = some (.file []) := by
  decide +kernel

end Combine

end MapReduce
