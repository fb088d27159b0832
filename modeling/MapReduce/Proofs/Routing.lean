import Mathlib.Algebra.Ring.Nat
import MapReduce.Proofs.Frames
import MapReduce.Proofs.Shares
import MapReduce.Proofs.Shuffle

/-!
# Line by line to the owners

A shuffle sends each line to the output that owns the key of its record, in the order in which the
lines are read, and counts it there. It stops at the first line that is no record and says where
that is; the outputs then have the lines before it. No remainder by zero is taken and no output
asked for that there is not.
-/

namespace MapReduce.Shuffle

open FileTree (Rewritten)
open OutputFiles (Hold)

variable {hash : Bytes → Nat} {files files' : OutputFiles} {t t₀ t' : FileTree}
  {places : List Location} {lines good rest : List Bytes} {line : Bytes} {reader : FileReader}
  {contents : Bytes} {n i number fuel : Nat} {path : Path} {counts counts' : List Nat}

/-! ### What the outputs are due -/

/-- Of `n` outputs, the one that the record on a line goes to. -/
def ownerOf (hash : Bytes → Nat) (n : Nat) (line : Bytes) : Option Nat :=
  (Record.split line).toOption.map fun r => hash r.key % n

def routed (hash : Bytes → Nat) (n i : Nat) (lines : List Bytes) : List Bytes :=
  lines.filter fun line => ownerOf hash n line = some i

/-- The lines of each output. -/
def shares (hash : Bytes → Nat) (n : Nat) (lines : List Bytes) : List (List Bytes) :=
  (List.range n).map fun i => routed hash n i lines

theorem ownerOf_of_split {r : Record} (hsplit : Record.split line = .ok r) :
    ownerOf hash n line = some (hash r.key % n) := by
  rw [ownerOf, hsplit]
  rfl

theorem routed_concat {r : Record} (hsplit : Record.split line = .ok r) (lines : List Bytes) :
    routed hash n i (lines ++ [line])
      = routed hash n i lines ++ if hash r.key % n = i then [line] else [] := by
  rw [routed, List.filter_append, ← routed, List.filter_singleton, ownerOf_of_split hsplit]
  simp

/-- Every line that is a record goes to one output. -/
theorem flatMap_routed_perm (hn : 0 < n) (hlines : ∀ l ∈ lines, ∃ r, Record.split l = .ok r) :
    ((List.range n).flatMap fun i => routed hash n i lines).Perm lines := by
  have howner : ∀ l ∈ lines, ∃ j < n, ownerOf hash n l = some j := by
    intro l hl
    obtain ⟨r, hsplit⟩ := hlines l hl
    exact ⟨_, Nat.mod_lt _ hn, ownerOf_of_split hsplit⟩
  have hsame : ∀ i, routed hash n i lines
      = lines.filter fun l => (ownerOf hash n l).getD 0 = i := by
    intro i
    apply List.filter_congr
    intro l hl
    obtain ⟨j, -, hj⟩ := howner l hl
    simp [hj]
  simp only [hsame]
  apply flatMap_filter_perm
  intro l hl
  obtain ⟨j, hlt, hj⟩ := howner l hl
  simpa [hj] using hlt

theorem sum_length_shares (hn : 0 < n) (hlines : ∀ l ∈ lines, ∃ r, Record.split l = .ok r) :
    ((shares hash n lines).map List.length).sum = lines.length := by
  rw [← (flatMap_routed_perm hn hlines).length_eq, List.length_flatMap, shares, List.map_map]
  rfl

/-! ### On the way -/

/-- The lines so far have been sent to the files at these places, and have been counted. -/
structure Carried (hash : Bytes → Nat) (places : List Location) (t₀ t : FileTree)
    (counts : List Nat) (files : OutputFiles) (lines : List Bytes) : Prop where
  hold : Hold t (fun _ => false)
    (fun i => (routed hash places.length i lines).flatMap Bytes.terminate) files
  counts : counts = (shares hash places.length lines).map List.length
  placed : files.places = places
  rewritten : Rewritten places t₀ t

theorem Carried.length_eq (h : Carried hash places t₀ t counts files lines) :
    files.length = places.length := by
  rw [← h.placed, OutputFiles.length_places]

theorem Carried.length_counts (h : Carried hash places t₀ t counts files lines) :
    counts.length = files.length := by
  rw [h.length_eq, h.counts, shares, List.length_map, List.length_map, List.length_range]

/-- **One line.** A line that is a record is added to what its owner has. -/
theorem Carried.send {r : Record} (h : Carried hash places t₀ t counts files lines)
    (hpos : 0 < places.length) (hsplit : Record.split line = .ok r) :
    ∃ counts' files' t', Shuffle.send hash r.key line counts files t = (.ok counts', files', t')
      ∧ Carried hash places t₀ t' counts' files' (lines ++ [line]) := by
  obtain ⟨files', t', hwrite⟩ := h.hold.writeLine_ordinary (hash r.key % files.length) line
  obtain ⟨hhold, hrew, hplaces⟩ := h.hold.writeLine hwrite
  refine ⟨counts.modify (hash r.key % files.length) (· + 1), files', t', ?_, ?_, ?_,
    hplaces.trans h.placed, h.rewritten.trans (h.placed ▸ hrew)⟩
  · rw [send_of_pos (h.length_eq ▸ hpos) h.length_counts, hwrite]
  · convert hhold using 1
    funext i
    rw [routed_concat hsplit, h.length_eq]
    by_cases hi : i = hash r.key % places.length
    · simp [hi]
    · simp [hi, Ne.symm hi]
  · rw [h.counts, h.length_eq, shares, List.map_map, OutputFiles.modify_map_range, shares,
      List.map_map]
    apply List.map_congr_left
    intro i _
    rw [Function.comp_apply, Function.comp_apply, routed_concat hsplit]
    split <;> simp

/-- **A stretch of lines.** As long as they are records, lines are sent on one after the other. -/
theorem routeLines_carried (h : Carried hash places t₀ t counts files lines)
    (hpos : 0 < places.length)
    (hread : t₀.read reader.place = .ok contents) (hplace : reader.place ∉ places)
    (hgood : ∀ l ∈ good, ∃ r, Record.split l = .ok r)
    (hlines : Bytes.lines (reader.pending contents) = good ++ rest) (number fuel : Nat) :
    ∃ reader' counts' files' t',
      routeLines hash path number reader counts files t (good.length + fuel)
          = routeLines hash path (number + good.length) reader' counts' files' t' fuel
        ∧ Carried hash places t₀ t' counts' files' (lines ++ good)
        ∧ t'.read reader'.place = .ok contents
        ∧ Bytes.lines (reader'.pending contents) = rest := by
  induction good generalizing t counts files lines reader number with
  | nil =>
      refine ⟨reader, counts, files, t, ?_, ?_, ?_, hlines⟩
      · rw [List.length_nil, Nat.zero_add, Nat.add_zero]
      · rwa [List.append_nil]
      · rwa [h.rewritten.read_of_notMem hplace]
  | cons line good ih =>
      obtain ⟨⟨r, hsplit⟩, hgood⟩ := List.forall_mem_cons.mp hgood
      have hread' : t.read reader.place = .ok contents :=
        (h.rewritten.read_of_notMem hplace).trans hread
      obtain ⟨reader₁, hnext, hsame, hrest⟩ := FileReader.next_of_lines_cons hread' hlines
      obtain ⟨counts₁, files₁, t₁, hsend, h₁⟩ := h.send hpos hsplit
      obtain ⟨reader', counts', files', t', hroute, h', hread'', hrest'⟩ :=
        ih h₁ (hsame ▸ hread) (hsame ▸ hplace) hgood hrest (number + 1)
      refine ⟨reader', counts', files', t', ?_, ?_, hread'', hrest'⟩
      · rw [List.length_cons, Nat.add_right_comm, routeLines, hnext]
        simp only [hsplit, hsend, hroute]
        rw [Nat.add_assoc, Nat.add_comm 1]
      · rwa [List.append_assoc, List.singleton_append] at h'

/-- A file whose lines are records is sent on as a whole. -/
theorem routeLines_of_records (reader : FileReader)
    (h : Carried hash places t₀ t counts files lines) (hpos : 0 < places.length)
    (hread : t₀.read reader.place = .ok contents) (hplace : reader.place ∉ places)
    (hgood : ∀ l ∈ good, ∃ r, Record.split l = .ok r)
    (hlines : Bytes.lines (reader.pending contents) = good) (path : Path) (number : Nat)
    (hfuel : good.length < fuel) :
    ∃ counts' files' t',
      routeLines hash path number reader counts files t fuel = (.ok counts', files', t')
        ∧ Carried hash places t₀ t' counts' files' (lines ++ good) := by
  obtain ⟨spare, rfl⟩ := Nat.exists_eq_add_of_lt hfuel
  obtain ⟨reader', counts', files', t', hroute, h', hread', hend⟩ :=
    routeLines_carried h hpos hread hplace hgood (hlines.trans (List.append_nil _).symm) number
      (spare + 1)
  refine ⟨counts', files', t', ?_, h'⟩
  rw [Nat.add_assoc, hroute, routeLines, FileReader.next_of_lines_nil hread' hend]

/-- A line that is no record is where a file is given up. -/
theorem routeLines_of_malformed {bad : Bytes} {e : RecordError} (reader : FileReader)
    (h : Carried hash places t₀ t counts files lines) (hpos : 0 < places.length)
    (hread : t₀.read reader.place = .ok contents) (hplace : reader.place ∉ places)
    (hgood : ∀ l ∈ good, ∃ r, Record.split l = .ok r)
    (hlines : Bytes.lines (reader.pending contents) = good ++ bad :: rest)
    (hbad : Record.split bad = .error e) (path : Path) (number : Nat)
    (hfuel : good.length < fuel) :
    ∃ counts' files' t', routeLines hash path number reader counts files t fuel
        = (.error (.failed (.malformed path (number + good.length) e)), files', t')
      ∧ Carried hash places t₀ t' counts' files' (lines ++ good) := by
  obtain ⟨spare, rfl⟩ := Nat.exists_eq_add_of_lt hfuel
  obtain ⟨reader', counts', files', t', hroute, h', hread', hrest⟩ :=
    routeLines_carried h hpos hread hplace hgood hlines number (spare + 1)
  obtain ⟨reader'', hnext, -, -⟩ := FileReader.next_of_lines_cons hread' hrest
  refine ⟨counts', files', t', ?_, h'⟩
  rw [Nat.add_assoc, hroute, routeLines, hnext]
  simp only [hbad]

/-- The file at a path has these lines and is none of those at some places. -/
def Feeds (t : FileTree) (places : List Location) (path : Path) (lines : List Bytes) : Prop :=
  ∃ source contents, t.Stores path source contents ∧ source ∉ places
    ∧ Bytes.lines contents = lines

/-- **A stretch of files.** Files whose lines are records are sent on one after the other. -/
theorem routeFiles_carried {inputs : List Path} {texts : List (List Bytes)}
    (h : Carried hash places t₀ t counts files lines) (hpos : 0 < places.length)
    (hinputs : List.Forall₂ (Feeds t₀ places) inputs texts)
    (hrecords : ∀ l ∈ texts.flatten, ∃ r, Record.split l = .ok r) (later : List Path) :
    ∃ counts' files' t', routeFiles hash counts t files (inputs ++ later)
          = routeFiles hash counts' t' files' later
      ∧ Carried hash places t₀ t' counts' files' (lines ++ texts.flatten) := by
  induction hinputs generalizing t counts files lines with
  | nil => exact ⟨counts, files, t, rfl, by rwa [List.flatten_nil, List.append_nil]⟩
  | @cons input text inputs texts hinput _ ih =>
      obtain ⟨source, contents, hstores, hsource, htext⟩ := hinput
      rw [List.flatten_cons, List.forall_mem_append] at hrecords
      have hstores' : t.Stores input source contents := hstores.rewritten h.rewritten hsource
      have hfuel : text.length < lineLimit t source := htext ▸ length_lt_lineLimit hstores'.read
      obtain ⟨counts₁, files₁, t₁, hroute, h₁⟩ := routeLines_of_records (.ofPlace source) h hpos
        hstores.read hsource hrecords.1 htext input 1 hfuel
      obtain ⟨counts', files', t', hrest, h'⟩ := ih h₁ hrecords.2
      refine ⟨counts', files', t', ?_, ?_⟩
      · rw [List.cons_append, routeFiles, hstores'.openFile]
        simp only [hroute, hrest]
      · rwa [List.flatten_cons, ← List.append_assoc]

/-- A file with a line that is no record ends the shuffle there. -/
theorem routeFiles_of_malformed {bad : Bytes} {e : RecordError}
    (h : Carried hash places t₀ t counts files lines) (hpos : 0 < places.length)
    (hinput : Feeds t₀ places path (good ++ bad :: rest))
    (hgood : ∀ l ∈ good, ∃ r, Record.split l = .ok r) (hbad : Record.split bad = .error e)
    (later : List Path) :
    ∃ counts' files' t', routeFiles hash counts t files (path :: later)
        = (.error (.failed (.malformed path (good.length + 1) e)), files', t')
      ∧ Carried hash places t₀ t' counts' files' (lines ++ good) := by
  obtain ⟨source, contents, hstores, hsource, htext⟩ := hinput
  have hstores' : t.Stores path source contents := hstores.rewritten h.rewritten hsource
  have hfuel : good.length < lineLimit t source := by
    have hlimit := length_lt_lineLimit hstores'.read
    rw [htext, List.length_append] at hlimit
    exact Nat.lt_of_le_of_lt (Nat.le_add_right _ _) hlimit
  obtain ⟨counts', files', t', hroute, h'⟩ := routeLines_of_malformed (.ofPlace source) h hpos
    hstores.read hsource hgood htext hbad path 1 hfuel
  refine ⟨counts', files', t', ?_, h'⟩
  rw [routeFiles, hstores'.openFile]
  simp only [hroute]
  rw [Nat.add_comm]

/-! ### Remainders and indices -/

/-- A part of a shuffle between `n` outputs has not ended in a fault, and there is a count for each
output. -/
inductive Faultless (n : Nat) : Except (Abort ShuffleError) (List Nat) → Prop where
  | ok {counts : List Nat} (hlength : counts.length = n) : Faultless n (.ok counts)
  | failed (e : ShuffleError) : Faultless n (.error (.failed e))

theorem Faultless.ne_fault {result : Except (Abort ShuffleError) (List Nat)}
    (h : Faultless n result) (fault : Fault) : result ≠ .error (.fault fault) := by
  rintro rfl
  cases h

theorem send_faultless (hpos : 0 < files.length) (hcounts : counts.length = files.length)
    (hash : Bytes → Nat) (key line : Bytes) (t : FileTree) :
    Faultless files.length (send hash key line counts files t).1 := by
  rw [send_of_pos hpos hcounts]
  rcases files.writeLine (hash key % files.length) line t with ⟨e | _, files', t'⟩
  · exact .failed _
  · exact .ok (by rw [List.length_modify, hcounts])

theorem routeLines_faultless (hpos : 0 < files.length) (hcounts : counts.length = files.length)
    (hash : Bytes → Nat) (path : Path) (number : Nat) (reader : FileReader) (t : FileTree)
    (fuel : Nat) :
    Faultless files.length (routeLines hash path number reader counts files t fuel).1 := by
  induction fuel generalizing counts files number reader t with
  | zero => exact .failed _
  | succ fuel ih =>
      rw [routeLines]
      rcases reader.next t with e | _ | ⟨line, reader⟩
      · exact .failed _
      · exact .ok hcounts
      · dsimp only
        cases Record.split line with
        | error e => exact .failed _
        | ok record =>
            have hsent := send_faultless hpos hcounts hash record.key line t
            have hconfine := confine_send hash record.key line counts files t
            dsimp only
            rcases hsend : send hash record.key line counts files t with ⟨e | counts₁, files₁, t₁⟩
            all_goals rw [hsend] at hsent hconfine
            · exact hsent
            · cases hsent with
              | ok hlength =>
                  have hsame := OutputFiles.length_eq_of_places hconfine.places
                  rw [← hsame] at hpos hlength ⊢
                  exact ih hpos hlength (number + 1) reader t₁

theorem routeFiles_faultless (hpos : 0 < files.length) (hcounts : counts.length = files.length)
    (hash : Bytes → Nat) (inputs : List Path) (t : FileTree) :
    Faultless files.length (routeFiles hash counts t files inputs).1 := by
  induction inputs generalizing counts files t with
  | nil => exact .ok hcounts
  | cons path inputs ih =>
      rw [routeFiles]
      cases t.openFile path with
      | error e => exact .failed _
      | ok source =>
          have hlines := routeLines_faultless hpos hcounts hash path 1 (.ofPlace source) t
            (lineLimit t source)
          have hconfine := confine_routeLines hash path 1 (.ofPlace source) counts files t
            (lineLimit t source)
          dsimp only
          rcases hroute : routeLines hash path 1 (.ofPlace source) counts files t (lineLimit t source)
            with ⟨e | counts₁, files₁, t₁⟩
          all_goals rw [hroute] at hlines hconfine
          · exact hlines
          · cases hlines with
            | ok hlength =>
                have hsame := OutputFiles.length_eq_of_places hconfine.places
                rw [← hsame] at hpos hlength ⊢
                exact ih hpos hlength t₁

/-- A shuffle looks before it divides and before it asks for an output, and never in vain. -/
theorem attempt_ne_fault (hash : Bytes → Nat) (inputs outputs : List Path) (t : FileTree)
    (fault : Fault) : (attempt hash inputs outputs t).1 ≠ .error (.fault fault) := by
  rw [attempt]
  rcases hcreate : OutputFiles.create outputs t with ⟨e | files, t₁⟩
  · simp
  · have hfiles := routeFiles_faultless (OutputFiles.length_pos_of_create hcreate)
      (List.length_replicate (a := 0)) hash inputs t₁
    dsimp only
    rcases hroute : routeFiles hash (.replicate files.length 0) t₁ files inputs
      with ⟨e | counts, files₂, t₂⟩
    all_goals rw [hroute] at hfiles
    · exact hfiles.ne_fault fault
    · dsimp only
      cases (files₂.flush t₂).1 with
      | error e => simp [Except.map, Except.mapError]
      | ok _ => simp [Except.map, Except.mapError]

/-! ### Whole runs -/

variable {inputs outputs : List Path} {texts : List (List Bytes)}

/-- The outputs are files that can be written to, and no two of them are one. -/
structure Ready (t : FileTree) (inputs outputs : List Path) : Prop where
  ne_nil : outputs ≠ []
  separate : outputs.Pairwise t.Separate
  apart : ∀ input ∈ inputs, ∀ output ∈ outputs, t.Separate input output
  ordinary : ∀ output ∈ outputs, t.Ordinary output

/-- The outputs have been created and nothing has been sent. -/
theorem Ready.exists_created (h : Ready t inputs outputs) (hash : Bytes → Nat) :
    ∃ files t₀, OutputFiles.create outputs t = (.ok files, t₀)
      ∧ List.Forall₂ (fun output place => t.resolve output = .ok place) outputs files.places
      ∧ Rewritten files.places t t₀ ∧ 0 < files.places.length
      ∧ Carried hash files.places t₀ t₀ (.replicate files.length 0) files [] := by
  obtain ⟨files, t₀, hcreate, hplaces, hrew, hhold⟩ :=
    OutputFiles.create_ordinary h.ne_nil h.separate h.ordinary
  have hpos : 0 < files.places.length := by
    rw [← hplaces.length_eq]
    exact List.length_pos_iff.mpr h.ne_nil
  refine ⟨files, t₀, hcreate, hplaces, hrew, hpos, hhold, ?_, rfl, .refl _ _⟩
  rw [← OutputFiles.length_places]
  simp [shares, routed, List.map_const']

theorem Ready.feeds (h : Ready t inputs outputs) {places : List Location}
    (hplaces : List.Forall₂ (fun output place => t.resolve output = .ok place) outputs places)
    (hrew : Rewritten places t t₀) (hpath : path ∈ inputs) (hlines : t.HasLines path lines) :
    Feeds t₀ places path lines := by
  obtain ⟨source, contents, hstores, hlines⟩ := hlines
  have hsource : source ∉ places :=
    FileTree.notMem_of_separate hplaces (h.apart path hpath) hstores.resolve
  exact ⟨source, contents, hstores.rewritten hrew hsource, hsource, hlines⟩

theorem Ready.forall₂_feeds (h : Ready t inputs outputs) {paths : List Path}
    {places : List Location}
    (hplaces : List.Forall₂ (fun output place => t.resolve output = .ok place) outputs places)
    (hrew : Rewritten places t t₀) (hpaths : ∀ path ∈ paths, path ∈ inputs)
    (htexts : List.Forall₂ t.HasLines paths texts) : List.Forall₂ (Feeds t₀ places) paths texts := by
  apply ((List.forall₂_and_left _ _).mpr ⟨hpaths, htexts⟩).imp
  rintro path text ⟨hpath, hlines⟩
  exact h.feeds hplaces hrew hpath hlines

/-- Files that hold what they were sent, once their writers have been flushed or given up. -/
theorem Ready.forall₂_holdsLines (h : Ready t inputs outputs) {places : List Location}
    (hplaces : List.Forall₂ (fun output place => t.resolve output = .ok place) outputs places)
    (hrew : Rewritten places t t') (hfree : ∀ l ∈ lines, Bytes.newline ∉ l)
    (hholds : ∀ (i : Nat) (place : Location), places[i]? = some place →
      t'.Holds place false ((routed hash places.length i lines).flatMap Bytes.terminate)) :
    List.Forall₂ t'.HoldsLines outputs (shares hash outputs.length lines) := by
  rw [← hplaces.length_eq] at hholds
  refine FileTree.forall₂_holdsLines (hplaces.imp fun _ _ hplace => (hrew.resolve _ _).mpr hplace)
    ?_ hholds ?_
  · intro output houtput
    obtain ⟨place, hplace, -⟩ := h.ordinary output houtput
    exact hplace.not_endsInSlash
  · intro i l hl
    exact hfree l (List.mem_filter.mp hl).1

/-- No input is looked at when there are no outputs. -/
theorem run_without_outputs (hash : Bytes → Nat) (inputs : List Path) (t : FileTree) :
    run hash inputs [] t
      = (.error (.io (.worded .invalidInput "at least one destination file is required")), t) := by
  rw [run, attempt, OutputFiles.create]
  rfl

/-- Files of records are sent on line by line, and nothing is lost. -/
theorem run_of_records (h : Ready t inputs outputs) (hash : Bytes → Nat)
    (hinputs : List.Forall₂ t.HasLines inputs texts)
    (hrecords : ∀ l ∈ texts.flatten, ∃ r, Record.split l = .ok r) :
    ∃ t', run hash inputs outputs t
        = (.ok ((shares hash outputs.length texts.flatten).map List.length), t')
      ∧ List.Forall₂ t'.HoldsLines outputs (shares hash outputs.length texts.flatten) := by
  obtain ⟨files, t₀, hcreate, hplaces, hrew₀, hpos, hempty⟩ := h.exists_created hash
  have hfeeds := h.forall₂_feeds hplaces hrew₀ (fun _ hmem => hmem) hinputs
  obtain ⟨counts, files₁, t₁, hroute, h₁⟩ := routeFiles_carried hempty hpos hfeeds hrecords []
  rw [List.append_nil] at hroute
  rw [List.nil_append] at h₁
  obtain ⟨files₂, t₂, hflush⟩ := h₁.hold.flush_ordinary
  obtain ⟨hflushed, hrew₂, hplaces₂⟩ := h₁.hold.flush hflush
  refine ⟨t₂, ?_, ?_⟩
  · rw [run_of_routed hcreate hroute hflush, hflushed.close, h₁.counts, hplaces.length_eq]
  · refine h.forall₂_holdsLines hplaces (hrew₀.trans (h₁.rewritten.trans (h₁.placed ▸ hrew₂)))
      (FileTree.newline_notMem_flatten hinputs) ?_
    intro i place hplace
    rw [← h₁.placed, ← hplaces₂] at hplace
    exact hflushed.stored i place hplace

/-- At the first line that is no record a shuffle fails, and the outputs keep the lines before. -/
theorem run_of_malformed {before after : List Path} {bad : Bytes} {e : RecordError}
    (h : Ready t (before ++ path :: after) outputs) (hash : Bytes → Nat)
    (hbefore : List.Forall₂ t.HasLines before texts) (hpath : t.HasLines path (good ++ bad :: rest))
    (hrecords : ∀ l ∈ texts.flatten ++ good, ∃ r, Record.split l = .ok r)
    (hbad : Record.split bad = .error e) :
    ∃ t', run hash (before ++ path :: after) outputs t
        = (.error (.malformed path (good.length + 1) e), t')
      ∧ List.Forall₂ t'.HoldsLines outputs
          (shares hash outputs.length (texts.flatten ++ good)) := by
  rw [List.forall_mem_append] at hrecords
  obtain ⟨files, t₀, hcreate, hplaces, hrew₀, hpos, hempty⟩ := h.exists_created hash
  have hfeeds := h.forall₂_feeds hplaces hrew₀ (fun _ => List.mem_append_left _) hbefore
  have hfeed := h.feeds hplaces hrew₀ (by simp) hpath
  obtain ⟨counts₁, files₁, t₁, hroute₁, h₁⟩ :=
    routeFiles_carried hempty hpos hfeeds hrecords.1 (path :: after)
  obtain ⟨counts₂, files₂, t₂, hroute₂, h₂⟩ :=
    routeFiles_of_malformed h₁ hpos hfeed hrecords.2 hbad after
  rw [List.nil_append] at h₂
  refine ⟨files₂.close t₂, ?_, ?_⟩
  · simp only [run, attempt, hcreate, hroute₁, hroute₂]
    rfl
  · have hfree : ∀ l ∈ texts.flatten ++ good, Bytes.newline ∉ l := by
      rw [List.forall_mem_append]
      refine ⟨FileTree.newline_notMem_flatten hbefore, fun l hl => ?_⟩
      exact hpath.newline_notMem l (List.mem_append_left _ hl)
    refine h.forall₂_holdsLines hplaces (hrew₀.trans (h₂.rewritten.trans ?_)) hfree ?_
    · exact h₂.placed ▸ files₂.rewritten_close t₂
    · exact h₂.placed ▸ h₂.hold.close

/-- **Routing.** Each line goes to the output that owns its key, as it is and in the order of the
files and of their lines, up to the first line that is no record. Without outputs nothing is opened,
and no remainder by zero or output that there is not is ever asked for. -/
theorem run_routed (hash : Bytes → Nat) (inputs outputs : List Path) (t : FileTree) :
    (Ready t inputs outputs → ∀ texts, List.Forall₂ t.HasLines inputs texts →
        (∀ l ∈ texts.flatten, ∃ r, Record.split l = .ok r) →
          ∃ t', run hash inputs outputs t
              = (.ok ((shares hash outputs.length texts.flatten).map List.length), t')
            ∧ List.Forall₂ t'.HoldsLines outputs (shares hash outputs.length texts.flatten)
            ∧ ((shares hash outputs.length texts.flatten).map List.length).sum
              = texts.flatten.length)
      ∧ (Ready t inputs outputs → ∀ before path after texts good bad rest e,
          inputs = before ++ path :: after → List.Forall₂ t.HasLines before texts →
          t.HasLines path (good ++ bad :: rest) →
          (∀ l ∈ texts.flatten ++ good, ∃ r, Record.split l = .ok r) →
          Record.split bad = .error e →
            ∃ t', run hash inputs outputs t = (.error (.malformed path (good.length + 1) e), t')
              ∧ List.Forall₂ t'.HoldsLines outputs
                (shares hash outputs.length (texts.flatten ++ good)))
      ∧ (outputs = [] → run hash inputs outputs t
          = (.error (.io (.worded .invalidInput "at least one destination file is required")), t))
      ∧ ∀ fault, (attempt hash inputs outputs t).1 ≠ .error (.fault fault) := by
  refine ⟨?_, ?_, ?_, attempt_ne_fault hash inputs outputs t⟩
  · intro hready texts hinputs hrecords
    obtain ⟨t', hrun, hholds⟩ := run_of_records hready hash hinputs hrecords
    have hpos : 0 < outputs.length := List.length_pos_iff.mpr hready.ne_nil
    exact ⟨t', hrun, hholds, sum_length_shares hpos hrecords⟩
  · rintro hready before path after texts good bad rest e rfl hbefore hpath hrecords hbad
    exact run_of_malformed hready hash hbefore hpath hrecords hbad
  · rintro rfl
    exact run_without_outputs hash inputs t

/-- Two files of records, the first without a last newline, and one with a line that is no record. -/
def threeTexts : FileTree :=
  ⟨[], [([], .directory), ([Bytes.ofString "in1"], .file (Bytes.ofString "a x\nbb y\na z")),
    ([Bytes.ofString "in2"], .file (Bytes.ofString "c \n")),
    ([Bytes.ofString "in3"], .file (Bytes.ofString "bb 1\nbb\na 2\n"))]⟩

theorem run_routed_threeTexts :
    (∃ t', run List.length (["in1", "in2"].map Bytes.ofString) (["p0", "p1"].map Bytes.ofString)
          threeTexts = (.ok [1, 3], t')
        ∧ t'.HoldsLines (Bytes.ofString "p0") (["bb y"].map Bytes.ofString)
        ∧ t'.HoldsLines (Bytes.ofString "p1") (["a x", "a z", "c "].map Bytes.ofString))
      ∧ (∃ t', run List.length (["in1", "in3", "in2"].map Bytes.ofString)
          (["p0", "p1"].map Bytes.ofString) threeTexts
            = (.error (.malformed (Bytes.ofString "in3") 2 (.malformed (Bytes.ofString "bb"))), t')
        ∧ t'.HoldsLines (Bytes.ofString "p0") (["bb y", "bb 1"].map Bytes.ofString)
        ∧ t'.HoldsLines (Bytes.ofString "p1") (["a x", "a z"].map Bytes.ofString))
      ∧ run List.length [Bytes.ofString "none"] [] threeTexts
        = (.error (.io (.worded .invalidInput "at least one destination file is required")),
          threeTexts) := by
  have hready : Ready threeTexts (["in1", "in3", "in2"].map Bytes.ofString)
      (["p0", "p1"].map Bytes.ofString) :=
    ⟨by simp, by decide +kernel, by decide +kernel, by decide +kernel⟩
  have hready₂ : Ready threeTexts (["in1", "in2"].map Bytes.ofString)
      (["p0", "p1"].map Bytes.ofString) :=
    ⟨by simp, by decide +kernel, by decide +kernel, by decide +kernel⟩
  have hin₁ : threeTexts.HasLines (Bytes.ofString "in1")
      (["a x", "bb y", "a z"].map Bytes.ofString) :=
    ⟨[Bytes.ofString "in1"], Bytes.ofString "a x\nbb y\na z",
      ⟨by decide +kernel, by decide +kernel⟩, by decide +kernel⟩
  have hin₂ : threeTexts.HasLines (Bytes.ofString "in2") (["c "].map Bytes.ofString) :=
    ⟨[Bytes.ofString "in2"], Bytes.ofString "c \n",
      ⟨by decide +kernel, by decide +kernel⟩, by decide +kernel⟩
  have hin₃ : threeTexts.HasLines (Bytes.ofString "in3")
      (["bb 1"].map Bytes.ofString ++ Bytes.ofString "bb" :: ["a 2"].map Bytes.ofString) :=
    ⟨[Bytes.ofString "in3"], Bytes.ofString "bb 1\nbb\na 2\n",
      ⟨by decide +kernel, by decide +kernel⟩, by decide +kernel⟩
  have hrecords : ∀ l ∈ ["a x", "bb y", "a z", "c ", "bb 1"].map Bytes.ofString,
      ∃ r, Record.split l = .ok r := by
    simp only [List.map_cons, List.map_nil, List.forall_mem_cons, List.not_mem_nil]
    exact ⟨⟨_, rfl⟩, ⟨_, rfl⟩, ⟨_, rfl⟩, ⟨_, rfl⟩, ⟨_, rfl⟩, by simp⟩
  refine ⟨?_, ?_, ?_⟩
  · obtain ⟨t', hrun, hholds, -⟩ := (run_routed List.length _ _ threeTexts).1 hready₂
      [["a x", "bb y", "a z"].map Bytes.ofString, ["c "].map Bytes.ofString]
      (.cons hin₁ (.cons hin₂ .nil)) (fun l hl => hrecords l (by revert l; decide +kernel))
    obtain ⟨hfirst, hrest⟩ := List.forall₂_cons.mp hholds
    obtain ⟨hsecond, -⟩ := List.forall₂_cons.mp hrest
    exact ⟨t', hrun, hfirst, hsecond⟩
  · obtain ⟨t', hrun, hholds⟩ := (run_routed List.length _ _ threeTexts).2.1 hready
      [Bytes.ofString "in1"] (Bytes.ofString "in3") [Bytes.ofString "in2"]
      [["a x", "bb y", "a z"].map Bytes.ofString] _ _ _ (.malformed (Bytes.ofString "bb")) rfl
      (.cons hin₁ .nil) hin₃ (fun l hl => hrecords l (by revert l; decide +kernel))
      (by decide +kernel)
    obtain ⟨hfirst, hrest⟩ := List.forall₂_cons.mp hholds
    obtain ⟨hsecond, -⟩ := List.forall₂_cons.mp hrest
    exact ⟨t', hrun, hfirst, hsecond⟩
  · exact (run_routed List.length [Bytes.ofString "none"] [] threeTexts).2.2.1 rfl

end MapReduce.Shuffle
