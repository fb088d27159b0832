import MapReduce.Proofs.CompleteGroups
import MapReduce.Proofs.Frames
import MapReduce.Proofs.Handover
import MapReduce.Proofs.Routing
import MapReduce.Proofs.TaskOrder

/-!
# Records stay legible

The stages of a job do not cut their lines alike: a map task writes records that may end in a
carriage return, a shuffle hands on what stands between two newlines, and a reduce task takes a
carriage return before a newline for a part of the line end. Still none of them meets a line of
another stage that it cannot read as a record. What may fail is the reading and writing of files, text
that is not valid, and the workload.
-/

namespace MapReduce

open FileTree (Touched)
open OutputFiles (Hold)

theorem eq_of_error_eq {ε α β : Type} {e e' : ε} {b b' : β}
    (h : ((.error e : Except ε α), b) = (.error e', b')) : e = e' :=
  Except.error.inj (Prod.mk.inj h).1

/-- A path leads to the same contents in both trees. -/
def FileTree.SameFile (t t' : FileTree) (path : Path) : Prop :=
  t'.openFile path >>= t'.read = t.openFile path >>= t.read

theorem FileTree.Touched.sameFile {t t' : FileTree} {paths : List Path} {path : Path}
    {place : Location} {contents : Bytes} (htouched : Touched paths t t')
    (hstores : t.Stores path place contents) (hpaths : ∀ p ∈ paths, t.Separate path p) :
    t.SameFile t' path :=
  (htouched.stores hstores hpaths).openFile_bind_read.trans hstores.openFile_bind_read.symm

/-! ### Lines of records -/

/-- Lines that can be read as records. -/
structure RecordLines (lines : List Bytes) : Prop where
  newline_notMem : ∀ l ∈ lines, Bytes.newline ∉ l
  records : ∀ l ∈ lines, ∃ r, Record.split l = .ok r

namespace RecordLines

variable {lines : List Bytes}

theorem nil : RecordLines [] where
  newline_notMem := by simp
  records := by simp

theorem concat (h : RecordLines lines) {l : Bytes} {r : Record} (hl : Bytes.newline ∉ l)
    (hsplit : Record.split l = .ok r) : RecordLines (lines ++ [l]) where
  newline_notMem := List.forall_mem_append.mpr ⟨h.newline_notMem, by simpa using hl⟩
  records := List.forall_mem_append.mpr ⟨h.records, by simpa using ⟨r, hsplit⟩⟩

end RecordLines

/-- A line that is read as a record is read as one without its carriage return too. -/
theorem Record.split_withoutReturn {l : Bytes} {r : Record} (h : split l = .ok r) :
    split (Line.withoutReturn Bytes.carriageReturn ⟨l, true⟩) = .ok r.withoutReturn := by
  obtain ⟨hlegible, rfl⟩ := split_eq_ok_iff.mp h
  rw [line_withoutReturn, split_line hlegible.withoutReturn]

/-- A file of lines that are records, each with a newline behind it. -/
def FileTree.HoldsRecords (t : FileTree) (path : Path) : Prop :=
  ∃ lines place, RecordLines lines ∧ t.Stores path place (lines.flatMap Bytes.terminate)

theorem FileTree.HoldsRecords.sameFile {t t' : FileTree} {path : Path} (h : t.HoldsRecords path)
    (hsame : t.SameFile t' path) : t'.HoldsRecords path := by
  obtain ⟨lines, place, hlines, hstores⟩ := h
  obtain ⟨place', hstores'⟩ :=
    FileTree.stores_of_bind_read (hsame.trans hstores.openFile_bind_read)
  exact ⟨lines, place', hlines, hstores'⟩

/-! ### What readers hand out -/

theorem LineReader.newline_notMem_next {r r' : LineReader} {line : Bytes}
    (hcapacity : 0 < r.capacity) (h : r.next = some (line, r')) : Bytes.newline ∉ line := by
  by_cases hmem : Bytes.newline ∈ r.pending
  · obtain ⟨a, b, hpending, ha⟩ := List.eq_append_cons_of_mem hmem
    obtain ⟨_, hnext, -⟩ := next_of_newline hcapacity ha hpending
    obtain ⟨rfl, -⟩ := Prod.mk.inj (Option.some.inj (hnext.symm.trans h))
    exact ha
  · by_cases hne : r.pending = []
    · cases (next_of_nil hcapacity hne).symm.trans h
    · obtain ⟨_, hnext, -⟩ := next_of_not_mem hcapacity hmem hne
      obtain ⟨rfl, -⟩ := Prod.mk.inj (Option.some.inj (hnext.symm.trans h))
      exact hmem

theorem FileReader.newline_notMem_next {r r' : FileReader} {t : FileTree} {line : Bytes}
    (h : r.next t = .ok (some (line, r'))) : Bytes.newline ∉ line := by
  by_cases hmem : Bytes.newline ∈ r.buffered
  · obtain ⟨a, c, hbuffered, ha⟩ := List.eq_append_cons_of_mem hmem
    have hnext := Except.ok.inj ((next_of_buffered t ha hbuffered).symm.trans h)
    obtain ⟨rfl, -⟩ := Prod.mk.inj (Option.some.inj hnext)
    exact ha
  · cases hread : t.read r.place with
    | error e =>
        simp only [next, Bytes.dropWhile_of_not_mem hmem, readNext, hread] at h
        cases h
    | ok contents =>
        rw [next_of_not_buffered hread hmem] at h
        obtain ⟨⟨line', rest⟩, hnext, hsame⟩ := Option.map_eq_some_iff.mp (Except.ok.inj h)
        obtain ⟨rfl, -⟩ := Prod.mk.inj hsame
        exact LineReader.newline_notMem_next (r.capacity_block_pos contents) hnext

/-! ### What map tasks write -/

namespace MapTask

variable {map : MapFunction} {aux : Bytes} {input output path : Path} {t t' : FileTree} {n : Nat}

theorem not_endsInSlash_of_run (h : run map aux input output t = (.ok n, t')) :
    output.endsInSlash = false := by
  rw [run] at h
  split at h
  · cases h
  · split at h
    · cases h
    · next place t₁ hcreate => exact FileTree.not_endsInSlash_of_create hcreate

/-- The file at a path is as a map task that succeeded left it. -/
def Wrote (t : FileTree) (path : Path) : Prop :=
  ∃ map aux shard t₀ n t₁, run map aux shard path t₀ = (.ok n, t₁) ∧ t₁.SameFile t path

theorem Wrote.written (h : Wrote t path) : ∃ records, Written t path records := by
  obtain ⟨map, aux, shard, t₀, n, t₁, hrun, hsame⟩ := h
  have hslash := not_endsInSlash_of_run hrun
  obtain ⟨_, place, full, records, -, hresolve, -, hrecords, hholds, hrew⟩ := run_eq_ok hrun
  have hstores := hholds.stores ((hrew.resolve path place).mpr hresolve) hslash
  exact ⟨records, FileTree.stores_of_bind_read (hsame.trans hstores.openFile_bind_read), hrecords⟩

theorem Wrote.sameFile (h : Wrote t path) (hsame : t.SameFile t' path) : Wrote t' path := by
  obtain ⟨map, aux, shard, t₀, n, t₁, hrun, hsame₁⟩ := h
  exact ⟨map, aux, shard, t₀, n, t₁, hrun, Eq.trans hsame hsame₁⟩

end MapTask

/-! ### Shuffling what was mapped -/

namespace Shuffle

variable {hash : Bytes → Nat} {files files' : OutputFiles} {t t' : FileTree} {full : Nat → Bool}
  {records : List Record} {reader : FileReader} {contents : Bytes} {e : ShuffleError}
  {failure : Abort ShuffleError} {counts counts' : List Nat}
  {fuel number index : Nat} {path : Path} {inputs outputs : List Path}

/-- This has not come from a line that is no record. -/
def NotMalformed (failure : Abort ShuffleError) : Prop :=
  (∃ cause, failure = .failed (.io cause)) ∨ ∃ fault, failure = .fault fault

theorem notMalformed_of_send {key line : Bytes}
    (hfail : send hash key line counts files t = (.error failure, files', t')) :
    NotMalformed failure := by
  rw [send] at hfail
  cases hpartition : partitionOf hash key files.length with
  | error fault =>
      rw [hpartition] at hfail
      exact Or.inr ⟨fault, (eq_of_error_eq hfail).symm⟩
  | ok owner =>
      rcases hwrite : files.writeCounted owner line counts t with ⟨cause | _, files₁, t₁⟩
      all_goals simp only [hpartition, hwrite] at hfail
      · cases cause with
        | failed cause => exact Or.inl ⟨cause, (eq_of_error_eq hfail).symm⟩
        | fault fault => exact Or.inr ⟨fault, (eq_of_error_eq hfail).symm⟩
      · cases hfail

theorem notMalformed_of_routeLines (hrecords : ∀ r ∈ records, r.Legible)
    (hread : t.read reader.place = .ok contents) (hplace : reader.place ∉ files.places)
    (hlines : Bytes.lines (reader.pending contents) = records.map Record.line)
    (hfail : routeLines hash path number reader counts files t fuel = (.error failure, files', t')) :
    NotMalformed failure := by
  induction records generalizing fuel t counts files reader number with
  | nil =>
      cases fuel with
      | zero => exact Or.inl ⟨_, (eq_of_error_eq hfail).symm⟩
      | succ fuel =>
          rw [routeLines, FileReader.next_of_lines_nil hread hlines] at hfail
          cases hfail
  | cons r records ih =>
      cases fuel with
      | zero => exact Or.inl ⟨_, (eq_of_error_eq hfail).symm⟩
      | succ fuel =>
          obtain ⟨reader', hnext, hsame, hrest⟩ := FileReader.next_of_lines_cons hread hlines
          rw [routeLines, hnext] at hfail
          simp only [Record.split_line (hrecords r (by simp))] at hfail
          have hconfine := confine_send hash r.key r.line counts files t
          rcases hsend : send hash r.key r.line counts files t with ⟨failure' | counts₁, files₁, t₁⟩
          all_goals rw [hsend] at hfail hconfine
          · obtain rfl := eq_of_error_eq hfail
            exact notMalformed_of_send hsend
          · have hread₁ : t₁.read reader'.place = .ok contents := by
              rw [hsame, hconfine.rewritten.read_of_notMem hplace, hread]
            have hplace₁ : reader'.place ∉ files₁.places := by
              rw [hsame]
              exact hconfine.places ▸ hplace
            exact ih (fun r' hr' => hrecords r' (by simp [hr'])) hread₁ hplace₁ hrest hfail

theorem notMalformed_of_routeFiles
    (hinputs : ∀ input ∈ inputs, ∃ records, Supplies t files.places input records)
    (hfail : routeFiles hash counts t files inputs = (.error failure, files', t')) :
    NotMalformed failure := by
  induction inputs generalizing t counts files with
  | nil => cases hfail
  | cons input inputs ih =>
      obtain ⟨⟨records, source, hstores, hsource, hrecords⟩, hrest⟩ :=
        List.forall_mem_cons.mp hinputs
      rw [routeFiles, hstores.openFile] at hfail
      dsimp only at hfail
      have hconfine :=
        confine_routeLines hash input 1 (.ofPlace source) counts files t (lineLimit t source)
      rcases hroute : routeLines hash input 1 (.ofPlace source) counts files t (lineLimit t source)
        with ⟨failure' | counts₁, files₁, t₁⟩
      all_goals rw [hroute] at hfail hconfine
      · obtain rfl := eq_of_error_eq hfail
        have hlines : Bytes.lines ((FileReader.ofPlace source).pending (Record.fileOf records)) =
            records.map Record.line := Record.lines_fileOf hrecords
        exact notMalformed_of_routeLines (fun r hr => (hrecords r hr).toLegible) hstores.read hsource
          hlines hroute
      · refine ih (fun input' hinput' => ?_) hfail
        obtain ⟨records', hsupplies⟩ := hrest input' hinput'
        exact ⟨records', hconfine.places ▸ hsupplies.rewritten hconfine.rewritten⟩

theorem exists_suppliesApart (hwrote : MapTask.Wrote t path)
    (hseparate : ∀ output ∈ outputs, t.Separate path output) :
    ∃ records, SuppliesApart t outputs path records := by
  obtain ⟨records, ⟨place, hstores⟩, hrecords⟩ := hwrote.written
  exact ⟨records, place, hstores, hseparate, hrecords⟩

/-- A shuffle of files of records, none of which it writes, meets no line that is none. -/
theorem notMalformed_of_attempt
    (hinputs : ∀ input ∈ inputs, ∃ records, SuppliesApart t outputs input records)
    (hfail : attempt hash inputs outputs t = (.error failure, t')) : NotMalformed failure := by
  rw [attempt] at hfail
  rcases hcreate : OutputFiles.create outputs t with ⟨cause | files, t₁⟩
  all_goals rw [hcreate] at hfail
  · exact Or.inl ⟨cause, (eq_of_error_eq hfail).symm⟩
  · have hcreated := hcreate
    rw [OutputFiles.create] at hcreated
    split at hcreated
    · cases hcreated
    obtain ⟨hpaths, hrew, -⟩ := OutputFiles.createAll_eq_ok hcreated
    have hsupplies : ∀ input ∈ inputs, ∃ records, Supplies t₁ files.places input records := by
      intro input hinput
      obtain ⟨records, hsupplies⟩ := hinputs input hinput
      exact ⟨records, hsupplies.supplies hrew (List.forall₂_map_right_iff.mpr hpaths)⟩
    dsimp only at hfail
    rcases hroute : routeFiles hash (.replicate files.length 0) t₁ files inputs
      with ⟨failure' | counts, files₂, t₂⟩
    all_goals
      rw [hroute] at hfail
      dsimp only at hfail
    · obtain rfl := eq_of_error_eq hfail
      exact notMalformed_of_routeFiles hsupplies hroute
    · rcases hflush : files₂.flush t₂ with ⟨cause | _, files₃, t₃⟩
      all_goals rw [hflush] at hfail
      · exact Or.inl ⟨cause, (eq_of_error_eq hfail).symm⟩
      · cases hfail

/-- A shuffle of files of records, none of which it writes, fails only on its files. -/
theorem exists_io_of_run
    (hinputs : ∀ input ∈ inputs, ∃ records, SuppliesApart t outputs input records)
    (hfail : run hash inputs outputs t = (.error e, t')) : ∃ cause, e = .io cause := by
  -- A fault would be reported as an error of this kind, but there is none.
  rcases hattempt : attempt hash inputs outputs t with ⟨failure | counts, t₁⟩
  all_goals rw [run, hattempt] at hfail
  · obtain rfl := eq_of_error_eq hfail
    rcases notMalformed_of_attempt hinputs hattempt with ⟨cause, rfl⟩ | ⟨fault, rfl⟩
    · exact ⟨cause, rfl⟩
    · exact absurd (congrArg Prod.fst hattempt) (attempt_ne_fault hash inputs outputs t fault)
  · cases hfail

/-! ### What a shuffle writes -/

/-- Each of the open files has been given lines that are records, and nothing else. -/
def GivenRecords (t : FileTree) (full : Nat → Bool) (files : OutputFiles) : Prop :=
  ∃ kept : Nat → List Bytes,
    Hold t full (fun i => (kept i).flatMap Bytes.terminate) files ∧ ∀ i, RecordLines (kept i)

theorem GivenRecords.writeLine {line : Bytes} {r : Record} (h : GivenRecords t full files)
    (hline : Bytes.newline ∉ line) (hsplit : Record.split line = .ok r)
    (hok : files.writeLine index line t = (.ok (), files', t')) : GivenRecords t' full files' := by
  obtain ⟨kept, hhold, hkept⟩ := h
  obtain ⟨hhold', -, -⟩ := hhold.writeLine hok
  refine ⟨fun i => if i = index then kept i ++ [line] else kept i, ?_, fun i => ?_⟩
  · convert hhold' using 1
    funext i
    by_cases hi : i = index <;> simp [hi]
  · by_cases hi : i = index
    · simpa only [hi, if_true] using (hkept index).concat hline hsplit
    · simpa only [hi, if_false] using hkept i

theorem GivenRecords.routeLines (h : GivenRecords t full files)
    (hok : Shuffle.routeLines hash path number reader counts files t fuel
      = (.ok counts', files', t')) : GivenRecords t' full files' := by
  induction fuel generalizing t counts files reader number with
  | zero => cases hok
  | succ fuel ih =>
      rw [Shuffle.routeLines] at hok
      rcases hnext : reader.next t with e | _ | ⟨line, reader'⟩
      all_goals
        rw [hnext] at hok
        dsimp only at hok
      · cases hok
      · obtain ⟨rfl, rfl⟩ := Prod.mk.inj (Prod.mk.inj hok).2
        exact h
      · cases hsplit : Record.split line with
        | error e =>
            rw [hsplit] at hok
            cases hok
        | ok r =>
            rw [hsplit] at hok
            dsimp only at hok
            rcases hsend : send hash r.key line counts files t with ⟨e | counts₁, files₁, t₁⟩
            all_goals rw [hsend] at hok
            · cases hok
            · obtain ⟨-, hwrite, -, -⟩ := send_eq_ok hsend
              exact ih (h.writeLine (FileReader.newline_notMem_next hnext) hsplit hwrite) hok

theorem GivenRecords.routeFiles (h : GivenRecords t full files)
    (hok : Shuffle.routeFiles hash counts t files inputs = (.ok counts', files', t')) :
    GivenRecords t' full files' := by
  induction inputs generalizing t counts files with
  | nil =>
      obtain ⟨rfl, rfl⟩ := Prod.mk.inj (Prod.mk.inj hok).2
      exact h
  | cons input inputs ih =>
      rw [Shuffle.routeFiles] at hok
      cases hopen : t.openFile input with
      | error e =>
          rw [hopen] at hok
          cases hok
      | ok source =>
          rw [hopen] at hok
          dsimp only at hok
          rcases hroute : Shuffle.routeLines hash input 1 (.ofPlace source) counts files t
            (lineLimit t source) with ⟨e | counts₁, files₁, t₁⟩
          all_goals rw [hroute] at hok
          · cases hok
          · exact ih (h.routeLines hroute) hok

/-- Whatever a shuffle was given, once it succeeds its outputs are files of records. -/
theorem holdsRecords_of_run {counts : List Nat} (houtputs : outputs.Pairwise t.Separate)
    (hok : run hash inputs outputs t = (.ok counts, t')) :
    ∀ path ∈ outputs, t'.HoldsRecords path := by
  obtain ⟨files, t₁, files₂, t₂, files₃, t₃, hcreate, hroute, hflush, rfl⟩ := exists_of_run hok
  have hcreated := OutputFiles.created_of_create houtputs hcreate
  obtain ⟨full, hempty⟩ := hcreated.hold
  have hgiven : GivenRecords t₁ full files := ⟨fun _ => [], hempty, fun _ => .nil⟩
  obtain ⟨kept, hhold, hrecords⟩ := hgiven.routeFiles hroute
  have hconfine := confine_routeFiles hash inputs (.replicate files.length 0) files t₁
  rw [hroute] at hconfine
  have hstores := hcreated.stores hconfine hhold hflush
  intro path hpath
  obtain ⟨bs, hbs, place, hstored⟩ := exists_mem_of_forall₂ hstores.flip hpath
  obtain ⟨i, -, rfl⟩ := List.mem_map.mp hbs
  exact ⟨kept i, place, hrecords i, hstored⟩

end Shuffle

/-! ### Reducing what was shuffled -/

namespace ReduceTask

variable {reduce : ReduceFunction} {aux : Bytes} {t t' : FileTree} {input output : Path}
  {cause : TaskError} {writer writer' : BlockWriter} {p p' : Progress} {lines : List Bytes}

/-- The ways in which a reduce task may fail without having met a line that is no record: files that
cannot be used, an input that is no text, and the reduce function. -/
inductive Failure (reduce : ReduceFunction) (aux : Bytes) (t : FileTree) (input : Path) :
    TaskError → Prop where
  | file (action : String) (path : Path) (e : IoError) :
      Failure reduce aux t input (.file action path e)
  | write (e : IoError) : Failure reduce aux t input (.write e)
  | sortSetup (e : IoError) : Failure reduce aux t input (.sortSetup e)
  | notText {contents : Bytes} (e : IoError) (hread : t.openFile input >>= t.read = .ok contents)
      (htext : ¬ Utf8.IsText contents) : Failure reduce aux t input (.sortInput input e)
  | workload {key : Bytes} {values : List Bytes} {e : WorkloadError}
      (h : reduce key values aux = .error e) : Failure reduce aux t input (.workload e)

theorem Failure.sameFile (hsame : t.SameFile t' input) (h : Failure reduce aux t' input cause) :
    Failure reduce aux t input cause := by
  cases h with
  | file action path e => exact .file action path e
  | write e => exact .write e
  | sortSetup e => exact .sortSetup e
  | notText e hread htext => exact .notText e (hsame.symm.trans hread) htext
  | workload h => exact .workload h

theorem failure_of_emit {key : Bytes} {values : List Bytes}
    (hfail : emit reduce aux writer key values = (.error cause, writer')) :
    Failure reduce aux t input cause := by
  rw [emit] at hfail
  split at hfail
  · next e h =>
      obtain rfl := eq_of_error_eq hfail
      exact .workload h
  · split at hfail
    · next e _ _ =>
        obtain rfl := eq_of_error_eq hfail
        exact .write e
    · cases hfail

theorem failure_of_finishGroup (hfail : p.finishGroup reduce aux = (.error cause, p')) :
    Failure reduce aux t input cause := by
  rw [Progress.finishGroup] at hfail
  split at hfail
  · cases hfail
  · split at hfail
    · next hemit =>
        obtain rfl := eq_of_error_eq hfail
        exact failure_of_emit hemit
    · cases hfail

theorem failure_of_add {r : Record} (hfail : p.add reduce aux r = (.error cause, p')) :
    Failure reduce aux t input cause := by
  rw [Progress.add] at hfail
  split at hfail
  · cases hfail
  · split at hfail
    · cases hfail
    · split at hfail
      · next hfinish =>
          obtain rfl := eq_of_error_eq hfail
          exact failure_of_finishGroup hfinish
      · cases hfail

theorem failure_of_emitFrom (hlines : ∀ l ∈ lines, ∃ r, Record.split l = .ok r)
    (hfail : emitFrom reduce aux input output none p lines = (.error cause, writer')) :
    Failure reduce aux t input cause := by
  induction lines generalizing p with
  | nil =>
      rw [emitFrom, finish] at hfail
      split at hfail
      · next hfinish =>
          obtain rfl := eq_of_error_eq hfail
          exact failure_of_finishGroup hfinish
      · split at hfail
        · cases hfail
        · obtain rfl := eq_of_error_eq hfail
          exact .file _ _ _
  | cons line lines ih =>
      obtain ⟨⟨r, hsplit⟩, hlines⟩ := List.forall_mem_cons.mp hlines
      rw [emitFrom, hsplit] at hfail
      dsimp only at hfail
      split at hfail
      · next hadd =>
          obtain rfl := eq_of_error_eq hfail
          exact failure_of_add hadd
      · exact ih hlines hfail

/-- The lines that a reduce task reads in a file of records are records, although it takes them
without their carriage returns. -/
theorem records_of_textLines (h : RecordLines lines) :
    ∀ l ∈ textLines (lines.flatMap Bytes.terminate), ∃ r, Record.split l = .ok r := by
  intro l hl
  rw [textLines, Bytes.split_flatMap_terminate h.newline_notMem] at hl
  simp only [List.map_map, List.mem_map, Function.comp_apply] at hl
  obtain ⟨l, hl, rfl⟩ := hl
  obtain ⟨r, hsplit⟩ := h.records l hl
  exact ⟨r.withoutReturn, Record.split_withoutReturn hsplit⟩

/-- A reduce task on a file of records meets no line that is not one. -/
theorem failure_of_run (hinput : t.HoldsRecords input)
    (hfail : run reduce aux input output t = (.error cause, t')) :
    Failure reduce aux t input cause := by
  obtain ⟨lines, source, hlines, hstores⟩ := hinput
  rw [run, runThrough, hstores.openFile] at hfail
  dsimp only at hfail
  cases hscratch : t.checkScratch (directoryOf output) with
  | error e =>
      rw [hscratch] at hfail
      obtain rfl := eq_of_error_eq hfail
      exact .sortSetup e
  | ok _ =>
      rw [hscratch] at hfail
      dsimp only at hfail
      by_cases htext : Utf8.IsText (lines.flatMap Bytes.terminate)
      · rw [read_bind_readLines hstores htext, Sorter.inMemory_ok] at hfail
        dsimp only at hfail
        split at hfail
        · obtain rfl := eq_of_error_eq hfail
          exact .file _ _ _
        · refine failure_of_emitFrom (fun l hl => ?_) (Prod.ext (Prod.mk.inj hfail).1 rfl)
          exact records_of_textLines hlines l (List.mem_mergeSort.mp hl)
      · cases hread : t.read source >>= readLines with
        | error e =>
            rw [hread, Sorter.inMemory_error] at hfail
            obtain rfl := eq_of_error_eq hfail
            exact .notText e hstores.openFile_bind_read htext
        | ok ls =>
            obtain ⟨contents, hcontents, hls⟩ := bind_eq_ok.mp hread
            obtain rfl := Except.ok.inj (hcontents.symm.trans hstores.read)
            exact absurd (isText_of_readLines hls) htext

end ReduceTask

/-! ### Tasks one after the other -/

namespace TaskRunner

variable {runner : TaskRunner} {tasks : List Task} {t : FileTree}

/-- Tasks change at most their output files. -/
theorem runEach_touched (runner : TaskRunner) (t : FileTree) (tasks : List Task) :
    Touched (tasks.map Task.output) t (runner.runEach t tasks).2 := by
  induction tasks generalizing t with
  | nil => exact .refl _ _
  | cons task tasks ih =>
      exact ((runner.run_touched task t).mono (by simp)).trans
        ((ih (runner.run task t).2).mono (by simp))

/-- When all map tasks of a phase have succeeded, their outputs are as they left them. -/
theorem wrote_of_runEach (hunrelated : t.Unrelated tasks) (hkind : ∀ task ∈ tasks, task.kind = .map)
    (hok : AllOk (runner.runEach t tasks).1) :
    ∀ task ∈ tasks, MapTask.Wrote (runner.runEach t tasks).2 task.output := by
  induction tasks generalizing t with
  | nil => simp
  | cons task tasks ih =>
      obtain ⟨hmap, hkinds⟩ := List.forall_mem_cons.mp hkind
      rw [runEach_cons, allOk_cons_iff] at hok
      obtain ⟨⟨n, hn⟩, hoks⟩ := hok
      have hone := runner.run_touched task t
      have htail := hunrelated.tail.variant (runner.variant_of_run task t)
      refine List.forall_mem_cons.mpr ⟨?_, ih htail hkinds hoks⟩
      have hrun : MapTask.run runner.workload.map runner.aux task.input task.output t
          = (.ok n, (runner.run task t).2) := by
        rw [run, hmap] at hn ⊢
        exact Prod.ext hn rfl
      have hwrote : MapTask.Wrote (runner.run task t).2 task.output :=
        ⟨_, _, _, _, _, _, hrun, rfl⟩
      obtain ⟨records, ⟨place, hstores⟩, -⟩ := hwrote.written
      refine hwrote.sameFile ((runner.runEach_touched _ tasks).sameFile hstores fun p hp => ?_)
      obtain ⟨later, hlater, rfl⟩ := List.mem_map.mp hp
      exact hone.separate ((List.pairwise_cons.mp hunrelated.outputs).1 later hlater)

/-- Of the reduce tasks, one after the other, none meets a line of its input that is no record. -/
def FailsLegibly (runner : TaskRunner) (t : FileTree) (tasks : List Task) : Prop :=
  List.Forall₂ (fun task result => ∀ cause, result = .error cause →
      ReduceTask.Failure runner.workload.reduce runner.aux t task.input cause)
    tasks (runner.runEach t tasks).1

theorem failsLegibly (hunrelated : t.Unrelated tasks) (hkind : ∀ task ∈ tasks, task.kind = .reduce)
    (hinputs : ∀ task ∈ tasks, t.HoldsRecords task.input) : runner.FailsLegibly t tasks := by
  induction tasks generalizing t with
  | nil => exact .nil
  | cons task tasks ih =>
      obtain ⟨hreduce, hkinds⟩ := List.forall_mem_cons.mp hkind
      obtain ⟨hinput, hrest⟩ := List.forall_mem_cons.mp hinputs
      have hone := runner.run_touched task t
      have htail := hunrelated.tail.variant (runner.variant_of_run task t)
      have hsame : ∀ later ∈ tasks, t.SameFile (runner.run task t).2 later.input := by
        intro later hlater
        obtain ⟨lines, place, -, hstores⟩ := hrest later hlater
        refine hone.sameFile hstores fun p hp => ?_
        rw [List.mem_singleton.mp hp]
        exact hunrelated.inputs later (by simp [hlater]) task (by simp)
      rw [FailsLegibly, runEach_cons]
      refine .cons (fun cause hcause => ?_) ?_
      · rw [run, hreduce] at hcause
        exact ReduceTask.failure_of_run hinput (Prod.ext hcause rfl)
      · have hlater := ih htail hkinds fun later hlater => (hrest later hlater).sameFile
          (hsame later hlater)
        refine ((List.forall₂_and_left _ _).mpr ⟨hsame, hlater⟩).imp ?_
        rintro later result ⟨hsame, hfailure⟩ cause hcause
        exact (hfailure cause hcause).sameFile hsame

end TaskRunner

end MapReduce
