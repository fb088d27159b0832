import MapReduce.Proofs.Grouping
import MapReduce.Proofs.LineReader
import MapReduce.Proofs.MapTask
import MapReduce.Shuffle

/-!
# Where records go

A shuffle that succeeds on files of records leaves in each output exactly the records whose keys it
owns, in the order in which they were read. The inputs are read while the outputs grow; no output
may be an input for this.
-/

namespace MapReduce

open FileTree (Rewritten)
open OutputFiles (Hold)

namespace Shuffle

variable {hash : Bytes → Nat} {files files' : OutputFiles} {t t' : FileTree} {full : Nat → Bool}
  {written : Nat → Bytes} {records : List Record} {reader : FileReader} {contents : Bytes}
  {n i number : Nat} {path : Path} {key line : Bytes} {counts counts' : List Nat}

def owned (hash : Bytes → Nat) (n i : Nat) (records : List Record) : List Record :=
  records.filter fun r => hash r.key % n = i

theorem owned_append (hash : Bytes → Nat) (n i : Nat) (a b : List Record) :
    owned hash n i (a ++ b) = owned hash n i a ++ owned hash n i b :=
  List.filter_append _ _

theorem map_key_owned (hash : Bytes → Nat) (n i : Nat) (records : List Record) :
    (owned hash n i records).map Record.key
      = (records.map Record.key).filter fun k => hash k % n = i := by
  rw [owned, List.filter_map]
  rfl

theorem mem_keys_owned_iff :
    key ∈ (owned hash n i records).map Record.key
      ↔ key ∈ records.map Record.key ∧ hash key % n = i := by
  rw [map_key_owned, List.mem_filter, decide_eq_true_iff]

theorem count_keys_owned (hkey : hash key % n = i) :
    ((owned hash n i records).map Record.key).count key = (records.map Record.key).count key := by
  rw [map_key_owned, List.count_filter (by simpa using hkey)]

theorem valuesOf_owned (hkey : hash key % n = i) (records : List Record) :
    valuesOf key ((owned hash n i records).map Record.entry)
      = valuesOf key (records.map Record.entry) := by
  simp only [valuesOf, owned, List.filter_map, List.filter_filter]
  congr 2
  apply List.filter_congr
  intro r _
  by_cases hr : r.key = key
  · simp [Record.entry, hr, hkey]
  · simp [Record.entry, hr]

/-! ### Sending records on -/

theorem partitionOf_of_pos (hn : 0 < n) (hash : Bytes → Nat) (key : Bytes) :
    partitionOf hash key n = .ok (hash key % n) :=
  if_neg (Nat.ne_of_gt hn)

/-- Where there are outputs, each with a count, the owner of a key is one of them. -/
theorem send_of_pos (hpos : 0 < files.length) (hcounts : counts.length = files.length)
    (hash : Bytes → Nat) (key line : Bytes) (t : FileTree) : send hash key line counts files t =
      match files.writeLine (hash key % files.length) line t with
      | (.error e, files', t) => (.error (.failed (.io e)), files', t)
      | (.ok _, files', t) => (.ok (counts.modify (hash key % files.length) (· + 1)), files', t) := by
  have howner : hash key % files.length < files.length := Nat.mod_lt _ hpos
  have hcounted : hash key % files.length < counts.length := by rwa [hcounts]
  rw [send, partitionOf_of_pos hpos]
  dsimp only
  rw [OutputFiles.writeCounted_of_lt howner hcounted]
  rcases files.writeLine (hash key % files.length) line t with ⟨e | _, files', t'⟩
  · rfl
  · rfl

/-- What a success comes from. -/
theorem send_eq_ok (hok : send hash key line counts files t = (.ok counts', files', t')) :
    hash key % files.length < files.length
      ∧ files.writeLine (hash key % files.length) line t = (.ok (), files', t')
      ∧ hash key % files.length < counts.length
      ∧ counts' = counts.modify (hash key % files.length) (· + 1) := by
  rw [send, partitionOf] at hok
  split at hok
  · cases hok
  · next owner howner =>
      split at howner
      · cases howner
      obtain rfl := Except.ok.inj howner
      rcases hwrite : files.writeCounted (hash key % files.length) line counts t
        with ⟨e | counts₁, files₁, t₁⟩
      all_goals simp only [hwrite] at hok
      · cases hok
      · obtain ⟨hcounts, hrest⟩ := Prod.mk.inj hok
        obtain ⟨rfl, rfl⟩ := Prod.mk.inj hrest
        obtain rfl := Except.ok.inj hcounts
        exact OutputFiles.writeCounted_eq_ok hwrite

/-- The lines of a file that is no output go where their keys belong. -/
theorem routeLines_eq_ok {fuel : Nat} (h : Hold t full written files)
    (hrecords : ∀ r ∈ records, r.Legible) (hread : t.read reader.place = .ok contents)
    (hplace : reader.place ∉ files.places)
    (hlines : Bytes.lines (reader.pending contents) = records.map Record.line)
    (hok : routeLines hash path number reader counts files t fuel = (.ok counts', files', t')) :
    Hold t' full
        (fun i => written i ++ Record.fileOf (owned hash files.length i records)) files'
      ∧ Rewritten files.places t t' ∧ files'.places = files.places := by
  induction records generalizing fuel t files written reader number counts with
  | nil =>
      cases fuel with
      | zero => simp [routeLines] at hok
      | succ fuel =>
          rw [routeLines, FileReader.next_of_lines_nil hread hlines] at hok
          obtain ⟨rfl, rfl⟩ := Prod.mk.inj (Prod.mk.inj hok).2
          exact ⟨by simpa [owned, Record.fileOf] using h, .refl _ _, rfl⟩
  | cons r records ih =>
      cases fuel with
      | zero => simp [routeLines] at hok
      | succ fuel =>
          obtain ⟨reader', hnext, hsame, hrest⟩ := FileReader.next_of_lines_cons hread hlines
          rw [routeLines, hnext] at hok
          simp only [Record.split_line (hrecords r (by simp))] at hok
          rcases hsend : send hash r.key r.line counts files t with ⟨result, files₁, t₁⟩
          rw [hsend] at hok
          cases result with
          | error e => simp at hok
          | ok counts₁ =>
              obtain ⟨-, hwrite, -, -⟩ := send_eq_ok hsend
              obtain ⟨h₁, hrew, hplaces⟩ := h.writeLine hwrite
              have hlength : files₁.length = files.length := OutputFiles.length_eq_of_places hplaces
              obtain ⟨h', hrew', hplaces'⟩ := ih h₁ (fun r' hr' => hrecords r' (by simp [hr']))
                (by rw [hsame, hrew.read_of_notMem hplace, hread]) (by rwa [hsame, hplaces]) hrest hok
              refine ⟨?_, hrew.trans (hplaces ▸ hrew'), hplaces'.trans hplaces⟩
              convert h' using 1
              funext i
              rw [hlength]
              by_cases hi : hash r.key % files.length = i
              · simp [owned, hi, Record.fileOf]
              · simp [owned, hi, Record.fileOf, Ne.symm hi]

theorem routeLines_ordinary {fuel : Nat} (hash : Bytes → Nat) (path : Path) (number : Nat)
    (h : Hold t (fun _ => false) written files) (hpos : 0 < files.length)
    (hcounts : counts.length = files.length) (hrecords : ∀ r ∈ records, r.Legible)
    (hread : t.read reader.place = .ok contents) (hplace : reader.place ∉ files.places)
    (hlines : Bytes.lines (reader.pending contents) = records.map Record.line)
    (hfuel : records.length < fuel) : ∃ counts' files' t',
      routeLines hash path number reader counts files t fuel = (.ok counts', files', t')
        ∧ counts'.length = files.length := by
  induction records generalizing fuel t files written reader number counts with
  | nil =>
      obtain ⟨fuel, rfl⟩ := Nat.exists_eq_add_one_of_ne_zero (Nat.ne_of_gt hfuel)
      exact ⟨counts, files, t, by rw [routeLines, FileReader.next_of_lines_nil hread hlines], hcounts⟩
  | cons r records ih =>
      obtain ⟨fuel, rfl⟩ := Nat.exists_eq_add_one_of_ne_zero (Nat.ne_of_gt (Nat.zero_lt_of_lt hfuel))
      obtain ⟨reader', hnext, hsame, hrest⟩ := FileReader.next_of_lines_cons hread hlines
      obtain ⟨files₁, t₁, hwrite⟩ := h.writeLine_ordinary (hash r.key % files.length) r.line
      obtain ⟨h₁, hrew, hplaces⟩ := h.writeLine hwrite
      have hlength : files₁.length = files.length := OutputFiles.length_eq_of_places hplaces
      have hcounts₁ : (counts.modify (hash r.key % files.length) (· + 1)).length = files₁.length := by
        rw [List.length_modify, hcounts, hlength]
      obtain ⟨counts', files', t', hroute, hcounts'⟩ := ih (number + 1) h₁ (hlength ▸ hpos) hcounts₁
        (fun r' hr' => hrecords r' (by simp [hr']))
        (by rw [hsame, hrew.read_of_notMem hplace, hread]) (by rwa [hsame, hplaces]) hrest
        (by simpa using hfuel)
      refine ⟨counts', files', t', ?_, hcounts'.trans hlength⟩
      simp only [routeLines, hnext, Record.split_line (hrecords r (by simp)),
        send_of_pos hpos hcounts, hwrite, hroute]

/-- A file of records that lies apart from the files at some places. -/
def Supplies (t : FileTree) (places : List Location) (path : Path) (records : List Record) : Prop :=
  ∃ source, t.Stores path source (Record.fileOf records) ∧ source ∉ places
    ∧ ∀ r ∈ records, r.Writable

theorem Supplies.rewritten {places : List Location} (h : Supplies t places path records)
    (hrew : Rewritten places t t') : Supplies t' places path records := by
  obtain ⟨source, hstores, hsource, hrecords⟩ := h
  exact ⟨source, hstores.rewritten hrew hsource, hsource, hrecords⟩

theorem routeFiles_eq_ok {inputs : List Path} {shards : List (List Record)}
    (h : Hold t full written files)
    (hinputs : List.Forall₂ (Supplies t files.places) inputs shards)
    (hok : routeFiles hash counts t files inputs = (.ok counts', files', t')) :
    Hold t' full
        (fun i => written i ++ Record.fileOf (owned hash files.length i shards.flatten)) files'
      ∧ Rewritten files.places t t' ∧ files'.places = files.places := by
  induction inputs generalizing t files written shards counts with
  | nil =>
      obtain rfl := List.forall₂_nil_left_iff.mp hinputs
      obtain ⟨rfl, rfl⟩ := Prod.mk.inj (Prod.mk.inj hok).2
      exact ⟨by simpa [owned, Record.fileOf] using h, .refl _ _, rfl⟩
  | cons input inputs ih =>
      obtain ⟨records, shards, hinput, hrest, rfl⟩ := List.forall₂_cons_left_iff.mp hinputs
      obtain ⟨source, hstores, hsource, hrecords⟩ := hinput
      rw [routeFiles, hstores.openFile] at hok
      dsimp only at hok
      rcases hroute : routeLines hash input 1 (.ofPlace source) counts files t (lineLimit t source)
        with ⟨result, files₁, t₁⟩
      rw [hroute] at hok
      cases result with
      | error e => simp at hok
      | ok counts₁ =>
          have hlines : Bytes.lines ((FileReader.ofPlace source).pending (Record.fileOf records))
              = records.map Record.line := Record.lines_fileOf hrecords
          obtain ⟨h₁, hrew, hplaces⟩ := routeLines_eq_ok h (fun r hr => (hrecords r hr).toLegible)
            hstores.read hsource hlines hroute
          have hlength : files₁.length = files.length := OutputFiles.length_eq_of_places hplaces
          have hrest₁ : List.Forall₂ (Supplies t₁ files₁.places) inputs shards :=
            hrest.imp fun _ _ hsupplies => hplaces ▸ hsupplies.rewritten hrew
          obtain ⟨h', hrew', hplaces'⟩ := ih h₁ hrest₁ hok
          refine ⟨?_, hrew.trans (hplaces ▸ hrew'), hplaces'.trans hplaces⟩
          convert h' using 1
          funext i
          rw [hlength, List.flatten_cons, owned_append]
          simp [Record.fileOf]

theorem length_lines_le (bs : Bytes) : (Bytes.lines bs).length ≤ bs.length := by
  induction bs using Line.induction_on Bytes.newline with
  | hlast a ha =>
      by_cases hne : a = []
      · simp [hne]
      · simpa [Bytes.lines_of_not_mem ha hne] using Nat.one_le_iff_ne_zero.mpr (by simpa using hne)
  | hline a b ha ih =>
      simp only [Bytes.lines_append_newline ha, List.length_cons, List.length_append]
      omega

theorem length_lt_lineLimit {place : Location} (hread : t.read place = .ok contents) :
    (Bytes.lines contents).length < lineLimit t place := by
  have := length_lines_le contents
  rw [lineLimit, hread]
  have : 0 < FileTree.sizeLimit := by decide
  dsimp only
  omega

theorem routeFiles_ordinary {inputs : List Path} {shards : List (List Record)}
    (hash : Bytes → Nat) (h : Hold t (fun _ => false) written files) (hpos : 0 < files.length)
    (hcounts : counts.length = files.length)
    (hinputs : List.Forall₂ (Supplies t files.places) inputs shards) :
    ∃ counts' files' t', routeFiles hash counts t files inputs = (.ok counts', files', t') := by
  induction inputs generalizing t files written shards counts with
  | nil => exact ⟨counts, files, t, rfl⟩
  | cons input inputs ih =>
      obtain ⟨records, shards, hinput, hrest, rfl⟩ := List.forall₂_cons_left_iff.mp hinputs
      obtain ⟨source, hstores, hsource, hrecords⟩ := hinput
      have hlegible : ∀ r ∈ records, r.Legible := fun r hr => (hrecords r hr).toLegible
      have hlines : Bytes.lines ((FileReader.ofPlace source).pending (Record.fileOf records))
          = records.map Record.line := Record.lines_fileOf hrecords
      have hfuel : records.length < lineLimit t source := by
        have := length_lt_lineLimit hstores.read
        rwa [Record.lines_fileOf hrecords, List.length_map] at this
      obtain ⟨counts₁, files₁, t₁, hroute, hcounts₁⟩ := routeLines_ordinary hash input 1 h hpos hcounts
        hlegible hstores.read hsource hlines hfuel
      obtain ⟨h₁, hrew, hplaces⟩ :=
        routeLines_eq_ok h hlegible hstores.read hsource hlines hroute
      have hlength : files₁.length = files.length := OutputFiles.length_eq_of_places hplaces
      have hrest₁ : List.Forall₂ (Supplies t₁ files₁.places) inputs shards :=
        hrest.imp fun _ _ hsupplies => hplaces ▸ hsupplies.rewritten hrew
      obtain ⟨counts', files', t', hfiles⟩ :=
        ih h₁ (hlength ▸ hpos) (hcounts₁.trans hlength.symm) hrest₁
      exact ⟨counts', files', t', by simp only [routeFiles, hstores.openFile, hroute, hfiles]⟩

/-! ### A whole shuffle -/

def SuppliesApart (t : FileTree) (outputs : List Path) (path : Path) (records : List Record) :
    Prop :=
  ∃ source, t.Stores path source (Record.fileOf records)
    ∧ (∀ output ∈ outputs, t.Separate path output) ∧ ∀ r ∈ records, r.Writable

theorem SuppliesApart.supplies {outputs : List Path} {places : List Location}
    (h : SuppliesApart t outputs path records) (hrew : Rewritten places t t')
    (hplaces : List.Forall₂ (fun output place => t.resolve output = .ok place) outputs places) :
    Supplies t' places path records := by
  obtain ⟨source, hstores, hseparate, hrecords⟩ := h
  have hsource : source ∉ places :=
    FileTree.notMem_of_separate hplaces hseparate hstores.resolve
  exact ⟨source, hstores.rewritten hrew hsource, hsource, hrecords⟩

/-- What a success comes from. -/
theorem exists_of_run {inputs outputs : List Path}
    (hok : run hash inputs outputs t = (.ok counts, t')) :
    ∃ files t₁ files₂ t₂ files₃ t₃,
      OutputFiles.create outputs t = (.ok files, t₁)
        ∧ routeFiles hash (.replicate files.length 0) t₁ files inputs = (.ok counts, files₂, t₂)
        ∧ files₂.flush t₂ = (.ok (), files₃, t₃) ∧ t' = files₃.close t₃ := by
  rw [run, attempt] at hok
  rcases hcreate : OutputFiles.create outputs t with ⟨e | files, t₁⟩
  all_goals simp only [hcreate] at hok
  · cases hok
  rcases hroute : routeFiles hash (.replicate files.length 0) t₁ files inputs
    with ⟨e | counts', files₂, t₂⟩
  all_goals simp only [hroute] at hok
  · cases hok
  rcases hflush : files₂.flush t₂ with ⟨e | _, files₃, t₃⟩
  all_goals rw [hflush] at hok
  · cases hok
  obtain ⟨hcounts, hended⟩ := Prod.mk.inj hok
  obtain rfl := Except.ok.inj hcounts
  exact ⟨files, t₁, files₂, t₂, files₃, t₃, rfl, hroute, hflush, hended.symm⟩

theorem run_of_routed {inputs outputs : List Path} {t₁ t₂ t₃ : FileTree} {files₂ files₃ : OutputFiles}
    (hcreate : OutputFiles.create outputs t = (.ok files, t₁))
    (hroute : routeFiles hash (.replicate files.length 0) t₁ files inputs = (.ok counts, files₂, t₂))
    (hflush : files₂.flush t₂ = (.ok (), files₃, t₃)) :
    run hash inputs outputs t = (.ok counts, files₃.close t₃) := by
  simp only [run, attempt, hcreate, hroute, hflush]
  rfl

theorem run_eq_ok {inputs outputs : List Path} {shards : List (List Record)}
    (hinputs : List.Forall₂ (SuppliesApart t outputs) inputs shards)
    (houtputs : outputs.Pairwise t.Separate)
    (hok : run hash inputs outputs t = (.ok counts, t')) :
    outputs ≠ [] ∧ ∃ (places : List Location) (full : Nat → Bool),
      List.Forall₂ (fun output place => t.resolve output = .ok place) outputs places
        ∧ Rewritten places t t'
        ∧ ∀ (i : Nat) (place : Location), places[i]? = some place →
            t'.Holds place (full i) (Record.fileOf (owned hash outputs.length i shards.flatten)) := by
  obtain ⟨files, t₁, files₂, t₂, files₃, t₃, hcreate, hroute, hflush, rfl⟩ := exists_of_run hok
  rw [OutputFiles.create] at hcreate
  split at hcreate
  · cases hcreate
  next hne =>
    refine ⟨mt List.isEmpty_iff.mpr hne, ?_⟩
    obtain ⟨hpaths, hrew₁, hhold⟩ := OutputFiles.createAll_eq_ok hcreate
    have hplaces : List.Forall₂ (fun output place => t.resolve output = .ok place) outputs
        files.places := List.forall₂_map_right_iff.mpr hpaths
    obtain ⟨full, hfiles, -⟩ := hhold (FileTree.nodup_of_separate houtputs hplaces)
    have hlength : files.length = outputs.length := hpaths.length_eq.symm
    have hsupplies : List.Forall₂ (Supplies t₁ files.places) inputs shards :=
      hinputs.imp fun _ _ h => h.supplies hrew₁ hplaces
    obtain ⟨hfiles₂, hrew₂, hplaces₂⟩ := routeFiles_eq_ok hfiles hsupplies hroute
    obtain ⟨hflushed, hrew₃, hplaces₃⟩ := hfiles₂.flush hflush
    rw [hflushed.close]
    refine ⟨files.places, full, hplaces, (hrew₁.trans hrew₂).trans (hplaces₂ ▸ hrew₃), ?_⟩
    intro i place hplace
    rw [← hplaces₂, ← hplaces₃] at hplace
    have hstored := hflushed.stored i place hplace
    rwa [hlength] at hstored

/-- When the files are in order, a shuffle succeeds. -/
theorem run_ordinary {inputs outputs : List Path} {shards : List (List Record)}
    (hash : Bytes → Nat) (hinputs : List.Forall₂ (SuppliesApart t outputs) inputs shards)
    (houtputs : outputs.Pairwise t.Separate) (hne : outputs ≠ [])
    (hcreatable : ∀ output ∈ outputs, t.Ordinary output) :
    ∃ counts t', run hash inputs outputs t = (.ok counts, t') := by
  obtain ⟨files, t₁, hcreate, hplaces, hrew₁, hfiles⟩ :=
    OutputFiles.create_ordinary hne houtputs hcreatable
  have hpos : 0 < files.length := by
    rw [← OutputFiles.length_places, ← hplaces.length_eq]
    exact List.length_pos_iff.mpr hne
  have hsupplies : List.Forall₂ (Supplies t₁ files.places) inputs shards :=
    hinputs.imp fun _ _ h => h.supplies hrew₁ hplaces
  obtain ⟨counts, files₂, t₂, hroute⟩ :=
    routeFiles_ordinary hash hfiles hpos (List.length_replicate (a := 0)) hsupplies
  obtain ⟨files₃, t₃, hflush⟩ := (routeFiles_eq_ok hfiles hsupplies hroute).1.flush_ordinary
  exact ⟨counts, files₃.close t₃, run_of_routed hcreate hroute hflush⟩

end Shuffle

end MapReduce
