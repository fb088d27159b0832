import MapReduce.OutputFiles
import MapReduce.Proofs.FileTree
import MapReduce.Proofs.Sink

/-!
# Files written side by side

As long as no write fails, what was written to one of several files is that file's own: a first part
has reached the file, the writer has the rest, and nothing else in the tree has changed. After a
flush the rest is empty.
-/

namespace MapReduce

open FileTree (Rewritten)

namespace FileTree

variable {t : FileTree} {place : Location} {full : Bool} {bs : Bytes} {w : BlockWriter}

theorem Holds.holds_ofSink (h : t.Holds place full []) :
    (BlockWriter.ofSink (t.sinkAt place)).Holds full [] := by
  cases h with
  | file h =>
      have hsink : t.sinkAt place = .unbounded := by simp [sinkAt, h]
      rw [hsink]
      exact BlockWriter.holds_ofSink Sink.behind_unbounded rfl
  | device h =>
      have hsink : t.sinkAt place = .full := by simp [sinkAt, h]
      rw [hsink]
      exact BlockWriter.holds_ofSink Sink.behind_full rfl

theorem Holds.writeAt_closed (h : t.Holds place full []) (hw : w.Holds full bs)
    (hcontents : w.sink.contents = bs) : (t.writeAt place 0 w.closed.contents).Holds place full bs := by
  rw [hw.closed_of_contents hcontents]
  cases h with
  | file h =>
      have := writeAt_of_file h bs
      rw [List.length_nil, List.nil_append] at this
      rw [this]
      exact .file (get?_put_self _ _ _)
  | device h =>
      obtain rfl : bs = [] := hcontents ▸ hw.sink.contents_of_full rfl
      rw [writeAt, h]
      exact .device h

theorem Holds.writeAt_closed_ordinary (h : t.Holds place false []) (hw : w.Holds false bs) :
    (t.writeAt place 0 w.closed.contents).Holds place false bs := by
  cases h with
  | file h =>
      have hwrite := writeAt_of_file h bs
      rw [List.length_nil, List.nil_append] at hwrite
      rw [hw.closed_ordinary, hwrite]
      exact .file (get?_put_self _ _ _)

/-- An ordinary file can be created, and what is written to it is there once it is closed. -/
theorem Ordinary.create {path : Path} (h : t.Ordinary path) :
    ∃ place t', t.create path = .ok (place, t') ∧ t'.Stores path place []
      ∧ (BlockWriter.ofSink (t'.sinkAt place)).Holds false []
      ∧ ∀ (w : BlockWriter) bs, w.Holds false bs →
          (t'.writeAt place 0 w.closed.contents).Stores path place bs := by
  obtain ⟨place, hplace, hnot⟩ := h
  obtain ⟨t', hcreate⟩ := hplace.create
  obtain ⟨hresolve, hrew, full, hholds, hfull⟩ := create_eq_ok hcreate
  obtain rfl : full = false := eq_false_of_ne_true fun htrue => hnot (hfull htrue)
  have hresolve' : t'.resolve path = .ok place := (hrew.resolve path place).mpr hresolve
  refine ⟨place, t', hcreate, hholds.stores hresolve' hplace.not_endsInSlash, hholds.holds_ofSink, ?_⟩
  intro w bs hw
  have hwrite := rewritten_writeAt t' place 0 w.closed.contents
  exact (hholds.writeAt_closed_ordinary hw).stores ((hwrite.resolve path place).mpr hresolve')
    hplace.not_endsInSlash

end FileTree

namespace OutputFile

/-- So far, these bytes were written to the file, and none was lost. -/
structure Holds (t : FileTree) (full : Bool) (bs : Bytes) (file : OutputFile) : Prop where
  parts : ∃ stored rest, t.Holds file.place full stored ∧ stored.length = file.offset
    ∧ file.writer.Holds full rest ∧ stored ++ rest = bs

variable {t t' : FileTree} {full : Bool} {bs : Bytes} {file file' : OutputFile}
  {places : List Location}

theorem Holds.rewritten (h : file.Holds t full bs) (hrew : Rewritten places t t')
    (hplace : file.place ∉ places) : file.Holds t' full bs := by
  obtain ⟨stored, rest, hstored, hparts⟩ := h.parts
  exact ⟨stored, rest, hstored.rewritten hrew hplace, hparts⟩

theorem holds_create {place : Location} (path : Path) (h : t.Holds place full []) :
    Holds t full [] ⟨path, place, 0, .ofSink (t.sinkAt place)⟩ :=
  ⟨[], [], h, rfl, h.holds_ofSink, rfl⟩

theorem Holds.deliver (h : file.Holds t full bs) :
    (file.deliver t).1.Holds (file.deliver t).2 full bs
      ∧ Rewritten [file.place] t (file.deliver t).2
      ∧ (file.deliver t).1.place = file.place
      ∧ (file.deliver t).1.writer.sink.contents = []
      ∧ (file.deliver t).1.writer.held = file.writer.held := by
  obtain ⟨stored, rest, hstored, hoffset, hwriter, hbs⟩ := h.parts
  unfold OutputFile.deliver
  cases hcontents : file.writer.sink.contents with
  | nil => exact ⟨h, .refl _ _, rfl, hcontents, rfl⟩
  | cons b more =>
      cases hstored with
      | device hdevice =>
          have := hwriter.sink.contents_of_full rfl
          simp [hcontents] at this
      | file hfile =>
          refine ⟨⟨stored ++ b :: more, file.writer.held.reverse.flatten, ?_, ?_, ?_, ?_⟩,
            FileTree.rewritten_writeAt _ _ _ _, rfl, rfl, rfl⟩
          · dsimp only
            rw [← hoffset, FileTree.writeAt_of_file hfile]
            exact .file (FileTree.get?_put_self _ _ _)
          · simp [hoffset]
          · exact ⟨hwriter.sink.emptied, hwriter.size, rfl⟩
          · rw [← hbs, ← hwriter.bytes, hcontents, List.append_assoc]

theorem Holds.writeLine {line : Bytes} (h : file.Holds t full bs)
    (hok : file.writeLine line t = (.ok (), file', t')) :
    file'.Holds t' full (bs ++ line.terminate) ∧ Rewritten [file.place] t t'
      ∧ file'.place = file.place := by
  obtain ⟨stored, rest, hstored, hoffset, hwriter, hbs⟩ := h.parts
  rcases hwrite : file.writer.writeLine line with ⟨result, writer⟩
  rw [OutputFile.writeLine, hwrite] at hok
  cases result with
  | error e => simp at hok
  | ok u =>
      have hwritten : Holds t full (bs ++ line.terminate) { file with writer := writer } :=
        ⟨stored, rest ++ line.terminate, hstored, hoffset, hwriter.writeLine hwrite, by simp [← hbs]⟩
      obtain ⟨hholds, hrew, hplace, -, -⟩ := hwritten.deliver
      obtain ⟨rfl, rfl⟩ := Prod.mk.inj (Prod.mk.inj hok).2
      exact ⟨hholds, hrew, hplace⟩

theorem Holds.writeLine_ordinary (h : file.Holds t false bs) (line : Bytes) :
    ∃ file' t', file.writeLine line t = (.ok (), file', t') := by
  obtain ⟨stored, rest, hstored, hoffset, hwriter, hbs⟩ := h.parts
  obtain ⟨writer, hwrite⟩ := hwriter.writeLine_ordinary line
  exact ⟨_, _, by rw [OutputFile.writeLine, hwrite]⟩

structure Flushed (t : FileTree) (full : Bool) (bs : Bytes) (file : OutputFile) : Prop where
  stored : t.Holds file.place full bs
  writer : file.writer.Holds full []

theorem Flushed.rewritten (h : file.Flushed t full bs) (hrew : Rewritten places t t')
    (hplace : file.place ∉ places) : file.Flushed t' full bs :=
  ⟨h.stored.rewritten hrew hplace, h.writer⟩

theorem Holds.flush (h : file.Holds t full bs) (hok : file.flush t = (.ok (), file', t')) :
    file'.Flushed t' full bs ∧ Rewritten [file.place] t t' ∧ file'.place = file.place := by
  obtain ⟨stored, rest, hstored, hoffset, hwriter, hbs⟩ := h.parts
  rcases hflush : file.writer.flush with ⟨result, writer⟩
  rw [OutputFile.flush, hflush] at hok
  cases result with
  | error e => simp at hok
  | ok u =>
      obtain ⟨hwriter', hcontents⟩ := hwriter.flush hflush
      have hflushed : Holds t full bs { file with writer := writer } :=
        ⟨stored, rest, hstored, hoffset, hwriter', hbs⟩
      obtain ⟨hholds, hrew, hplace, hsink, hheld⟩ := hflushed.deliver
      obtain ⟨rfl, rfl⟩ := Prod.mk.inj (Prod.mk.inj hok).2
      refine ⟨?_, hrew, hplace⟩
      have hnothing : writer.held.reverse.flatten = [] := by
        have hbytes := hwriter'.bytes
        rwa [hcontents, List.append_right_eq_self] at hbytes
      obtain ⟨stored', rest', hstored', hoffset', hdelivered, rfl⟩ := hholds.parts
      have hrest : rest' = [] := by
        rw [← hdelivered.bytes, hsink, hheld, hnothing]
        rfl
      subst hrest
      rw [List.append_nil]
      exact ⟨hstored', hdelivered⟩

theorem Holds.flush_ordinary (h : file.Holds t false bs) :
    ∃ file' t', file.flush t = (.ok (), file', t') := by
  obtain ⟨stored, rest, hstored, hoffset, hwriter, hbs⟩ := h.parts
  obtain ⟨writer, hflush⟩ := hwriter.flush_ordinary
  exact ⟨_, _, by rw [OutputFile.flush, hflush]⟩

theorem Holds.close (h : file.Holds t false bs) :
    (file.close t).Holds file.place false bs ∧ Rewritten [file.place] t (file.close t) := by
  obtain ⟨stored, rest, hstored, hoffset, hwriter, hbs⟩ := h.parts
  obtain ⟨writer, hrelease⟩ := hwriter.release_ordinary
  obtain ⟨hwriter', hempty⟩ := hwriter.release hrelease
  have hreleased : Holds t false bs { file with writer := writer } :=
    ⟨stored, rest, hstored, hoffset, hwriter', hbs⟩
  obtain ⟨hdelivered, hrew, hplace, hsink, hheld⟩ := hreleased.deliver
  rw [OutputFile.close, hrelease]
  refine ⟨?_, hrew⟩
  obtain ⟨stored', rest', hstored', -, hwriter'', rfl⟩ := hdelivered.parts
  have hrest : rest' = [] := by
    rw [← hwriter''.bytes, hsink, hheld, hempty]
    rfl
  rw [hplace] at hstored'
  rwa [hrest, List.append_nil]

theorem Flushed.close (h : file.Flushed t full bs) : file.close t = t := by
  have hcontents : file.writer.sink.contents = [] :=
    (List.append_eq_nil_iff.mp h.writer.bytes).1
  rw [OutputFile.close, h.writer.release_of_contents hcontents]
  simp [deliver, hcontents]

end OutputFile

namespace OutputFiles

def places (files : OutputFiles) : List Location :=
  files.map OutputFile.place

@[simp]
theorem length_places (files : OutputFiles) : files.places.length = files.length :=
  List.length_map _

theorem length_eq_of_places {files files' : OutputFiles} (h : files'.places = files.places) :
    files'.length = files.length := by
  rw [← length_places, h, length_places]

/-- No place is that of two files, and so far `written i` was written to file `i`. -/
structure Hold (t : FileTree) (full : Nat → Bool) (written : Nat → Bytes) (files : OutputFiles) :
    Prop where
  nodup : files.places.Nodup
  holds : ∀ (i : Nat) (file : OutputFile), files[i]? = some file →
    file.Holds t (full i) (written i)

variable {t t' : FileTree} {full : Nat → Bool} {written : Nat → Bytes} {file : OutputFile}
  {files files' : OutputFiles}

theorem hold_cons_iff :
    Hold t full written (file :: files) ↔
      file.place ∉ places files ∧ file.Holds t (full 0) (written 0)
        ∧ Hold t (fun i => full (i + 1)) (fun i => written (i + 1)) files := by
  constructor
  · intro h
    have hnodup := h.nodup
    rw [places, List.map_cons, List.nodup_cons] at hnodup
    exact ⟨hnodup.1, h.holds 0 file rfl, hnodup.2, fun i f hf => h.holds (i + 1) f hf⟩
  · rintro ⟨hplace, hfile, hfiles⟩
    refine ⟨List.nodup_cons.mpr ⟨hplace, hfiles.nodup⟩, ?_⟩
    intro i f hf
    cases i with
    | zero =>
        obtain rfl : file = f := by simpa using hf
        exact hfile
    | succ i => exact hfiles.holds i f (by simpa using hf)

theorem Hold.rewritten {changed : List Location} (h : Hold t full written files)
    (hrew : Rewritten changed t t') (hplaces : ∀ p ∈ places files, p ∉ changed) :
    Hold t' full written files where
  nodup := h.nodup
  holds i file hfile := (h.holds i file hfile).rewritten hrew
    (hplaces _ (List.mem_map_of_mem (List.mem_of_getElem? hfile)))

theorem Hold.writeLine {index : Nat} {line : Bytes} (h : Hold t full written files)
    (hok : files.writeLine index line t = (.ok (), files', t')) :
    Hold t' full (fun i => if i = index then written i ++ line.terminate else written i) files'
      ∧ Rewritten (places files) t t' ∧ places files' = places files := by
  induction files generalizing index full written files' with
  | nil =>
      rw [OutputFiles.writeLine] at hok
      obtain ⟨rfl, rfl⟩ := Prod.mk.inj (Prod.mk.inj hok).2
      exact ⟨⟨h.nodup, fun i f hf => by simp at hf⟩, .refl _ _, rfl⟩
  | cons file files ih =>
      obtain ⟨hplace, hfile, hfiles⟩ := hold_cons_iff.mp h
      cases index with
      | zero =>
          rcases hwrite : file.writeLine line t with ⟨result, file', t₁⟩
          simp only [OutputFiles.writeLine, hwrite, Prod.mk.injEq] at hok
          obtain ⟨rfl, rfl, rfl⟩ := hok
          obtain ⟨hfile', hrew, hsame⟩ := hfile.writeLine hwrite
          refine ⟨hold_cons_iff.mpr ⟨hsame ▸ hplace, by simpa using hfile', ?_⟩,
            hrew.mono (by simp [places]), by simp [places, hsame]⟩
          simpa using hfiles.rewritten hrew fun p hp => by
            simpa using fun h : p = file.place => hplace (h ▸ hp)
      | succ index =>
          rcases hwrite : writeLine index line t files with ⟨result, files₁, t₁⟩
          simp only [OutputFiles.writeLine, hwrite, Prod.mk.injEq] at hok
          obtain ⟨rfl, rfl, rfl⟩ := hok
          obtain ⟨hfiles', hrew, hsame⟩ := ih hfiles hwrite
          refine ⟨hold_cons_iff.mpr ⟨hsame ▸ hplace, ?_, by simpa using hfiles'⟩,
            hrew.mono (by simp [places]), by simpa [places] using hsame⟩
          simpa using hfile.rewritten hrew hplace

theorem Hold.writeLine_ordinary (h : Hold t (fun _ => false) written files) (index : Nat)
    (line : Bytes) : ∃ files' t', files.writeLine index line t = (.ok (), files', t') := by
  induction files generalizing index written with
  | nil => exact ⟨[], t, by rw [OutputFiles.writeLine]⟩
  | cons file files ih =>
      obtain ⟨-, hfile, hfiles⟩ := hold_cons_iff.mp h
      cases index with
      | zero =>
          obtain ⟨file', t', hwrite⟩ := hfile.writeLine_ordinary line
          exact ⟨_, _, by rw [OutputFiles.writeLine, hwrite]⟩
      | succ index =>
          obtain ⟨files', t', hwrite⟩ := ih hfiles index
          exact ⟨_, _, by rw [OutputFiles.writeLine, hwrite]⟩

/-! ### Finishing -/

structure Flushed (t : FileTree) (full : Nat → Bool) (written : Nat → Bytes)
    (files : OutputFiles) : Prop where
  flushed : ∀ (i : Nat) (file : OutputFile), files[i]? = some file →
    file.Flushed t (full i) (written i)

theorem flushed_cons_iff :
    Flushed t full written (file :: files) ↔ file.Flushed t (full 0) (written 0)
      ∧ Flushed t (fun i => full (i + 1)) (fun i => written (i + 1)) files := by
  constructor
  · exact fun h => ⟨h.flushed 0 file rfl, ⟨fun i f hf => h.flushed (i + 1) f hf⟩⟩
  · rintro ⟨hfile, hfiles⟩
    refine ⟨?_⟩
    intro i f hf
    cases i with
    | zero =>
        obtain rfl : file = f := by simpa using hf
        exact hfile
    | succ i => exact hfiles.flushed i f (by simpa using hf)

theorem Hold.flush (h : Hold t full written files)
    (hok : files.flush t = (.ok (), files', t')) :
    Flushed t' full written files' ∧ Rewritten (places files) t t'
      ∧ places files' = places files := by
  induction files generalizing t full written files' with
  | nil =>
      obtain ⟨rfl, rfl⟩ := Prod.mk.inj (Prod.mk.inj hok).2
      exact ⟨⟨fun i f hf => by simp at hf⟩, .refl _ _, rfl⟩
  | cons file files ih =>
      obtain ⟨hplace, hfile, hfiles⟩ := hold_cons_iff.mp h
      rcases hflush : file.flush t with ⟨result, file', t₁⟩
      rw [OutputFiles.flush, hflush] at hok
      cases result with
      | error e => simp at hok
      | ok u =>
          rcases hrest : OutputFiles.flush t₁ files with ⟨result, files₁, t₂⟩
          simp only [hrest, Prod.mk.injEq] at hok
          obtain ⟨rfl, rfl, rfl⟩ := hok
          obtain ⟨hfile', hrew, hsame⟩ := hfile.flush hflush
          have hfiles₁ := hfiles.rewritten hrew fun p hp => by
            simpa using fun h : p = file.place => hplace (h ▸ hp)
          obtain ⟨hfiles', hrew', hsame'⟩ := ih hfiles₁ hrest
          refine ⟨flushed_cons_iff.mpr ⟨hfile'.rewritten hrew' (hsame ▸ hplace), hfiles'⟩,
            (hrew.mono (by simp [places])).trans (hrew'.mono (by simp [places])), ?_⟩
          simpa [places, hsame] using hsame'

theorem Hold.flush_ordinary (h : Hold t (fun _ => false) written files) :
    ∃ files' t', files.flush t = (.ok (), files', t') := by
  induction files generalizing t written with
  | nil => exact ⟨[], t, rfl⟩
  | cons file files ih =>
      obtain ⟨hplace, hfile, hfiles⟩ := hold_cons_iff.mp h
      obtain ⟨file', t₁, hflush⟩ := hfile.flush_ordinary
      have hfiles₁ := hfiles.rewritten (hfile.flush hflush).2.1 fun p hp => by
        simpa using fun h : p = file.place => hplace (h ▸ hp)
      obtain ⟨files', t', hrest⟩ := ih hfiles₁
      exact ⟨file' :: files', t', by rw [OutputFiles.flush, hflush]; simp only [hrest]⟩

theorem Flushed.stored (h : Flushed t full written files) (i : Nat) (place : Location)
    (hplace : (places files)[i]? = some place) : t.Holds place (full i) (written i) := by
  rw [places, List.getElem?_map] at hplace
  obtain ⟨file, hfile, rfl⟩ := Option.map_eq_some_iff.mp hplace
  exact (h.flushed i file hfile).stored

theorem Flushed.close (h : Flushed t full written files) : files.close t = t := by
  induction files generalizing full written with
  | nil => rfl
  | cons file files ih =>
      obtain ⟨hfile, hfiles⟩ := flushed_cons_iff.mp h
      rw [OutputFiles.close, List.foldl_cons, hfile.close]
      exact ih hfiles

/-- Files that are given up keep what was written to them. -/
theorem Hold.close (h : Hold t (fun _ => false) written files) :
    ∀ (i : Nat) (place : Location), (places files)[i]? = some place →
      (files.close t).Holds place false (written i) := by
  -- The files that are closed later change nothing at the place of one closed before.
  suffices hsuff : Rewritten (places files) t (files.close t)
      ∧ ∀ (i : Nat) (file : OutputFile), files[i]? = some file →
        (files.close t).Holds file.place false (written i) by
    intro i place hplace
    rw [places, List.getElem?_map] at hplace
    obtain ⟨file, hfile, rfl⟩ := Option.map_eq_some_iff.mp hplace
    exact hsuff.2 i file hfile
  induction files generalizing t written with
  | nil => exact ⟨.refl _ _, by simp⟩
  | cons file files ih =>
      obtain ⟨hplace, hfile, hfiles⟩ := hold_cons_iff.mp h
      obtain ⟨hclosed, hrew⟩ := hfile.close
      have hfiles₁ := hfiles.rewritten hrew fun p hp => by
        simpa using fun h : p = file.place => hplace (h ▸ hp)
      obtain ⟨hrew', hrest⟩ := ih hfiles₁
      rw [OutputFiles.close, List.foldl_cons]
      refine ⟨(hrew.mono (by simp [places])).trans (hrew'.mono (by simp [places])), ?_⟩
      intro i f hf
      cases i with
      | zero =>
          obtain rfl : file = f := by simpa using hf
          exact hclosed.rewritten hrew' hplace
      | succ i => exact hrest i f (by simpa using hf)

/-! ### Counting lines -/

theorem checkIndex_eq_ok_iff {n index : Nat} : checkIndex n index = .ok () ↔ index < n := by
  rw [checkIndex]
  split
  · next h => exact ⟨fun _ => h, fun _ => rfl⟩
  · next h => exact ⟨nofun, fun hlt => absurd hlt h⟩

theorem countAt_of_lt {index : Nat} {counts : List Nat} (h : index < counts.length) :
    countAt index counts = .ok (counts.modify index (· + 1)) := by
  rw [countAt, checkIndex_eq_ok_iff.mpr h]
  rfl

theorem countAt_eq_ok {index : Nat} {counts counts' : List Nat}
    (hok : countAt index counts = .ok counts') :
    index < counts.length ∧ counts' = counts.modify index (· + 1) := by
  by_cases h : index < counts.length
  · rw [countAt_of_lt h] at hok
    exact ⟨h, (Except.ok.inj hok).symm⟩
  · rw [countAt, checkIndex, if_neg h] at hok
    cases hok

variable {index : Nat} {line : Bytes} {counts counts' : List Nat}

theorem writeCounted_of_lt (hindex : index < files.length) (hcounts : index < counts.length)
    (line : Bytes) (t : FileTree) : files.writeCounted index line counts t =
      match files.writeLine index line t with
      | (.error e, files, t) => (.error (.failed e), files, t)
      | (.ok _, files, t) => (.ok (counts.modify index (· + 1)), files, t) := by
  rw [writeCounted, checkIndex_eq_ok_iff.mpr hindex, countAt_of_lt hcounts]
  rfl

/-- What a success comes from. -/
theorem writeCounted_eq_ok (hok : files.writeCounted index line counts t = (.ok counts', files', t')) :
    index < files.length ∧ files.writeLine index line t = (.ok (), files', t')
      ∧ index < counts.length ∧ counts' = counts.modify index (· + 1) := by
  rw [writeCounted] at hok
  cases hcheck : checkIndex files.length index with
  | error e => simp [hcheck] at hok
  | ok _ =>
      rcases hwrite : files.writeLine index line t with ⟨e | _, files₁, t₁⟩
      all_goals simp only [hcheck, hwrite] at hok
      · cases hok
      · obtain ⟨hresult, hrest⟩ := Prod.mk.inj hok
        obtain ⟨rfl, rfl⟩ := Prod.mk.inj hrest
        cases hcount : countAt index counts with
        | error e =>
            rw [hcount] at hresult
            cases hresult
        | ok counts₁ =>
            rw [hcount] at hresult
            obtain rfl := Except.ok.inj hresult
            obtain ⟨hlt, hcounts⟩ := countAt_eq_ok hcount
            exact ⟨checkIndex_eq_ok_iff.mp hcheck, rfl, hlt, hcounts⟩

theorem modify_map_range (n index : Nat) (f : Nat → Nat) :
    ((List.range n).map f).modify index (· + 1)
      = (List.range n).map fun i => if index = i then f i + 1 else f i := by
  apply List.ext_getElem?
  intro i
  by_cases hi : i < n
  · by_cases hindex : index = i <;> simp [hi, hindex]
  · simp [hi]

/-! ### Creating -/

def flagsOf (first : Bool) (rest : Nat → Bool) : Nat → Bool
  | 0 => first
  | i + 1 => rest i

theorem createAll_eq_ok {paths : List Path} (h : createAll t paths = (.ok files, t')) :
    List.Forall₂ (fun path file => t.resolve path = .ok file.place) paths files
      ∧ Rewritten (places files) t t'
      ∧ (files.places.Nodup → ∃ full, Hold t' full (fun _ => []) files
          ∧ ∀ (i : Nat) (file : OutputFile), files[i]? = some file → full i = true →
              t.get? file.place = some .fullDevice) := by
  induction paths generalizing t files t' with
  | nil =>
      obtain ⟨hfiles, rfl⟩ := Prod.mk.inj h
      obtain rfl := Except.ok.inj hfiles
      exact ⟨.nil, .refl _ _, fun _ => ⟨fun _ => false, ⟨List.nodup_nil, by simp⟩, by simp⟩⟩
  | cons path paths ih =>
      rw [createAll] at h
      split at h
      · simp at h
      · next place t₁ hcreate =>
          split at h
          · next files₁ t₂ hrest =>
              obtain ⟨hfiles, rfl⟩ := Prod.mk.inj h
              obtain rfl := Except.ok.inj hfiles
              obtain ⟨hresolve, hrew, full, hplace, hfull⟩ := FileTree.create_eq_ok hcreate
              obtain ⟨hpaths, hrew₁, hhold⟩ := ih hrest
              refine ⟨.cons hresolve (hpaths.imp fun p f hf => (hrew.resolve p f.place).mp hf), ?_, ?_⟩
              · exact (hrew.mono (by simp [places])).trans (hrew₁.mono (by simp [places]))
              · intro hnodup
                obtain ⟨hnotMem, hnodup⟩ := List.nodup_cons.mp hnodup
                obtain ⟨fulls, hfiles₁, hfulls⟩ := hhold hnodup
                refine ⟨flagsOf full fulls,
                  hold_cons_iff.mpr ⟨hnotMem, ?_, hfiles₁⟩, ?_⟩
                · exact OutputFile.holds_create path (hplace.rewritten hrew₁ hnotMem)
                · intro i file hfile hdevice
                  cases i with
                  | zero =>
                      obtain rfl := Option.some.inj hfile
                      exact hfull hdevice
                  | succ i =>
                      have hmem : file.place ∈ places files₁ :=
                        List.mem_map_of_mem (List.mem_of_getElem? hfile)
                      have hne : file.place ≠ place := fun h =>
                        hnotMem (show place ∈ places files₁ from h ▸ hmem)
                      rw [← hrew.get?_of_notMem file.place (by simpa using hne)]
                      exact hfulls i file hfile hdevice
          · next hfail => exact absurd h (hfail _ _)

theorem createAll_of_creatable {paths : List Path}
    (h : ∀ path ∈ paths, ∃ place, t.Creatable path place) :
    ∃ files t', createAll t paths = (.ok files, t') := by
  induction paths generalizing t with
  | nil => exact ⟨[], t, rfl⟩
  | cons path paths ih =>
      obtain ⟨place, hpath⟩ := h path (by simp)
      obtain ⟨t₁, hcreate⟩ := hpath.create
      have hrew := (FileTree.create_eq_ok hcreate).2.1
      obtain ⟨files, t', hrest⟩ := ih (t := t₁) fun p hp => by
        obtain ⟨q, hq⟩ := h p (by simp [hp])
        exact ⟨q, hq.rewritten hrew⟩
      refine ⟨⟨path, place, 0, .ofSink (t'.sinkAt place)⟩ :: files, t', ?_⟩
      rw [createAll, hcreate]
      simp only [hrest]

/-- Files created where nothing or ordinary files were are ordinary files. -/
theorem createAll_ordinary {paths : List Path} (hseparate : paths.Pairwise t.Separate)
    (h : ∀ path ∈ paths, t.Ordinary path) :
    ∃ files t', createAll t paths = (.ok files, t')
      ∧ Hold t' (fun _ => false) (fun _ => []) files := by
  obtain ⟨files, t', hcreate⟩ := createAll_of_creatable (t := t) fun path hpath => by
    obtain ⟨place, hplace, -⟩ := h path hpath
    exact ⟨place, hplace⟩
  obtain ⟨hpaths, -, hhold⟩ := createAll_eq_ok hcreate
  have hplaces : List.Forall₂ (fun path place => t.resolve path = .ok place) paths files.places :=
    List.forall₂_map_right_iff.mpr hpaths
  obtain ⟨full, hfiles, hfull⟩ := hhold (FileTree.nodup_of_separate hseparate hplaces)
  refine ⟨files, t', hcreate, hfiles.nodup, ?_⟩
  intro i file hfile
  have hordinary : full i = false := by
    obtain ⟨path, hpath, hresolve⟩ := exists_mem_of_forall₂ hpaths (List.mem_of_getElem? hfile)
    obtain ⟨place, hplace, hnot⟩ := h path hpath
    obtain rfl := Except.ok.inj (hresolve.symm.trans hplace.resolve)
    exact eq_false_of_ne_true fun htrue => hnot (hfull i file hfile htrue)
  simpa [hordinary] using hfiles.holds i file hfile

/-- Nothing has been written to files that have just been created. -/
theorem create_ordinary {paths : List Path} (hne : paths ≠ []) (hseparate : paths.Pairwise t.Separate)
    (h : ∀ path ∈ paths, t.Ordinary path) :
    ∃ files t', create paths t = (.ok files, t')
      ∧ List.Forall₂ (fun path place => t.resolve path = .ok place) paths files.places
      ∧ Rewritten files.places t t' ∧ Hold t' (fun _ => false) (fun _ => []) files := by
  obtain ⟨files, t', hcreate, hhold⟩ := createAll_ordinary hseparate h
  obtain ⟨hpaths, hrew, -⟩ := createAll_eq_ok hcreate
  refine ⟨files, t', ?_, List.forall₂_map_right_iff.mpr hpaths, hrew, hhold⟩
  rw [create, List.isEmpty_eq_false_iff.mpr hne]
  exact hcreate

end OutputFiles

end MapReduce
