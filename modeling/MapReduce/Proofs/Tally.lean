import MapReduce.Proofs.Concatenation
import MapReduce.Proofs.Legible
import MapReduce.Proofs.Routing
import MapReduce.Proofs.Shard

/-!
# What the stages count

Sharding and shuffling count the lines that they write to each of their files, and joining files counts
the bytes that it copies. When such a stage succeeds its counts are right: each file that was written
has as many lines as were counted for it, and together these are as many as were read. Nothing is
assumed of what is read; no two of the files that are written may be one, and none of them may be read.
-/

namespace MapReduce

open FileTree (Rewritten Touched)

/-! ### Measuring files -/

namespace FileTree

/-- What is measured of the contents of the file at a path comes to a number. -/
def Measures (t : FileTree) (measure : Bytes → Nat) (path : Path) (n : Nat) : Prop :=
  ∃ place contents, t.Stores path place contents ∧ measure contents = n

/-- The file at a path has so many lines. The last one may lack its newline. -/
abbrev LineCount (t : FileTree) (path : Path) (n : Nat) : Prop :=
  t.Measures (fun bs => (Bytes.lines bs).length) path n

abbrev Size (t : FileTree) (path : Path) (n : Nat) : Prop :=
  t.Measures List.length path n

variable {t t' : FileTree} {measure : Bytes → Nat} {path : Path} {paths changed : List Path}
  {ns : List Nat} {n : Nat}

theorem Measures.rewritten {places : List Location} (h : t.Measures measure path n)
    (hrew : Rewritten places t t') (hapart : ∀ place, t.resolve path = .ok place → place ∉ places) :
    t'.Measures measure path n := by
  obtain ⟨place, contents, hstores, hn⟩ := h
  exact ⟨place, contents, hstores.rewritten hrew (hapart place hstores.resolve), hn⟩

theorem Measures.touched (h : t.Measures measure path n) (htouched : Touched changed t t')
    (hapart : ∀ p ∈ changed, t.Separate path p) : t'.Measures measure path n := by
  obtain ⟨place, contents, hstores, hn⟩ := h
  exact ⟨place, contents, htouched.stores hstores hapart, hn⟩

theorem forall₂_measures_touched (h : List.Forall₂ (t.Measures measure) paths ns)
    (htouched : Touched changed t t') (hapart : ∀ path ∈ paths, ∀ p ∈ changed, t.Separate path p) :
    List.Forall₂ (t'.Measures measure) paths ns := by
  apply ((List.forall₂_and_left _ _).mpr ⟨hapart, h⟩).imp
  rintro path n ⟨hpath, hmeasures⟩
  exact hmeasures.touched htouched hpath

theorem HasLines.length_eq {lines : List Bytes} (h : t.HasLines path lines)
    (hcount : t.LineCount path n) : lines.length = n := by
  obtain ⟨place, contents, hstores, rfl⟩ := h
  obtain ⟨place', contents', hstores', rfl⟩ := hcount
  obtain rfl := Except.ok.inj
    (hstores.openFile_bind_read.symm.trans hstores'.openFile_bind_read)
  rfl

end FileTree

/-! ### Counting while writing -/

namespace OutputFiles

variable {t t' t₁ t₂ t₃ : FileTree} {full : Nat → Bool} {files files' files₂ files₃ : OutputFiles}
  {total index : Nat} {line : Bytes} {paths : List Path} {counts : List Nat}

/-- Each of the open files has been given as many lines as are counted for it, and nothing else; in
all these are `total` lines. -/
structure Tallied (t : FileTree) (full : Nat → Bool) (files : OutputFiles) (counts : List Nat)
    (total : Nat) : Prop where
  given : ∃ kept : Nat → List Bytes, Hold t full (fun i => (kept i).flatMap Bytes.terminate) files
    ∧ (∀ i, ∀ l ∈ kept i, Bytes.newline ∉ l)
    ∧ counts = (List.range files.length).map fun i => (kept i).length
  total : counts.sum = total

theorem sum_modify_succ (h : index < counts.length) :
    (counts.modify index (· + 1)).sum = counts.sum + 1 := by
  induction counts generalizing index with
  | nil => simp at h
  | cons count counts ih =>
      cases index with
      | zero =>
          simp only [List.modify_zero_cons, List.sum_cons]
          omega
      | succ index =>
          simp only [List.modify_succ_cons, List.sum_cons, ih (Nat.lt_of_succ_lt_succ h)]
          omega

/-- **One line.** A line that is written is counted once. -/
theorem Tallied.writeLine (h : Tallied t full files counts total) (hindex : index < counts.length)
    (hline : Bytes.newline ∉ line) (hok : files.writeLine index line t = (.ok (), files', t')) :
    Tallied t' full files' (counts.modify index (· + 1)) (total + 1) := by
  obtain ⟨kept, hhold, hfree, hcounts⟩ := h.given
  obtain ⟨hhold', -, hplaces⟩ := hhold.writeLine hok
  refine ⟨⟨fun i => if i = index then kept i ++ [line] else kept i, ?_, fun i l hl => ?_, ?_⟩, ?_⟩
  · convert hhold' using 1
    funext i
    by_cases hi : i = index <;> simp [hi]
  · dsimp only at hl
    split at hl
    · rcases List.mem_append.mp hl with hl | hl
      · exact hfree i l hl
      · exact List.mem_singleton.mp hl ▸ hline
    · exact hfree i l hl
  · rw [hcounts, modify_map_range, length_eq_of_places hplaces]
    apply List.map_congr_left
    intro i _
    by_cases hi : i = index
    · simp [hi]
    · simp [hi, Ne.symm hi]
  · rw [sum_modify_succ hindex, h.total]

theorem Created.tallied (h : Created t paths files t₁) :
    ∃ full, Tallied t₁ full files (.replicate files.length 0) 0 := by
  obtain ⟨full, hhold⟩ := h.hold
  have hcounts : List.replicate files.length 0
      = (List.range files.length).map fun _ => ([] : List Bytes).length := by
    simp [List.map_const']
  exact ⟨full, ⟨fun _ => [], hhold, by simp, hcounts⟩, by simp⟩

/-- **Agreement.** Once all has been written, the files have as many lines as were counted. -/
theorem Created.lineCounts (h : Created t paths files t₁) (hconfine : files.Confine t₁ (files₂, t₂))
    (htally : Tallied t₂ full files₂ counts total)
    (hflush : files₂.flush t₂ = (.ok (), files₃, t₃)) :
    List.Forall₂ (files₃.close t₃).LineCount paths counts ∧ counts.sum = total := by
  obtain ⟨kept, hhold, hfree, hcounts⟩ := htally.given
  have hlength : files₂.length = paths.length := by
    rw [length_eq_of_places hconfine.places, h.length_eq]
  have hstores := h.stores hconfine hhold hflush
  refine ⟨?_, htally.total⟩
  rw [hcounts, hlength]
  rw [List.forall₂_map_right_iff] at hstores ⊢
  apply hstores.imp
  rintro path i ⟨place, hstored⟩
  exact ⟨place, _, hstored, congrArg List.length (Bytes.lines_flatMap_terminate (hfree i))⟩

end OutputFiles

/-! ### Sharding -/

namespace Shard

open OutputFiles (Tallied)

variable {input : Path} {paths : List Path} {t t' : FileTree} {counts counts' : List Nat}
  {files files' : OutputFiles} {full : Nat → Bool} {total next : Nat} {lines : List Bytes}

/-- The lines that are dealt out are counted once each. -/
theorem tallied_deal (h : Tallied t full files counts total)
    (hlines : ∀ line ∈ lines, Bytes.newline ∉ line)
    (hok : deal next counts files t lines = (.ok counts', files', t')) :
    Tallied t' full files' counts' (total + lines.length) := by
  induction lines generalizing t counts files total next with
  | nil =>
      obtain ⟨hcounts, hrest⟩ := Prod.mk.inj hok
      obtain ⟨rfl, rfl⟩ := Prod.mk.inj hrest
      obtain rfl := Except.ok.inj hcounts
      exact h
  | cons line lines ih =>
      obtain ⟨hfree, hlines⟩ := List.forall_mem_cons.mp hlines
      rw [deal] at hok
      rcases hwrite : files.writeCounted next line counts t with ⟨e | counts₁, files₁, t₁⟩
      all_goals rw [hwrite] at hok
      · cases hok
      · obtain ⟨-, hwritten, hnext, rfl⟩ := OutputFiles.writeCounted_eq_ok hwrite
        have hrest := ih (h.writeLine hnext hfree hwritten) hlines hok
        rwa [List.length_cons, Nat.add_comm lines.length, ← Nat.add_assoc]

/-- **Sharding.** When the lines of a file have been dealt out, each shard has as many lines as are
given for it, and together these are the lines of the file. -/
theorem run_counts (hseparate : ∀ path ∈ paths, t.Separate input path)
    (hpaths : paths.Pairwise t.Separate) (hok : run input paths t = (.ok counts, t')) :
    t.LineCount input counts.sum ∧ List.Forall₂ t'.LineCount paths counts := by
  obtain ⟨source, files, t₁, contents, files₂, t₂, files₃, t₃, hopen, hcreate, hread, hdeal, hflush,
    rfl⟩ := exists_of_run hok
  have hcreated := OutputFiles.created_of_create hpaths hcreate
  obtain ⟨full, hempty⟩ := hcreated.tallied
  have hsource : source ∉ files.places :=
    hcreated.notMem hseparate (FileTree.openFile_eq_ok hopen)
  rw [hcreated.rewritten.read_of_notMem hsource] at hread
  have hfree : ∀ line ∈ readLines contents, Bytes.newline ∉ line := by
    rw [readLines_eq]
    exact fun line hline => Bytes.not_mem_of_mem_lines contents line hline
  have htally := tallied_deal hempty hfree hdeal
  have hconfine := confine_deal 0 (.replicate files.length 0) files t₁ (readLines contents)
  rw [hdeal] at hconfine
  obtain ⟨hlines, hsum⟩ := hcreated.lineCounts hconfine htally hflush
  refine ⟨⟨source, contents, ⟨hopen, hread⟩, ?_⟩, hlines⟩
  rw [hsum, Nat.zero_add, readLines_eq]

end Shard

/-! ### Shuffling -/

namespace Shuffle

open OutputFiles (Tallied)

variable {hash : Bytes → Nat} {inputs outputs : List Path} {path : Path} {t t₀ t' : FileTree}
  {counts counts' : List Nat} {files files' : OutputFiles} {full : Nat → Bool} {reader : FileReader}
  {contents : Bytes} {lines : List Bytes} {total number fuel : Nat}

/-- The lines of a file that is not written meanwhile are counted once each. -/
theorem tallied_routeLines (h : Tallied t full files counts total)
    (hread : t.read reader.place = .ok contents) (hplace : reader.place ∉ files.places)
    (hlines : Bytes.lines (reader.pending contents) = lines)
    (hok : routeLines hash path number reader counts files t fuel = (.ok counts', files', t')) :
    Tallied t' full files' counts' (total + lines.length) := by
  induction lines generalizing fuel t counts files total reader number with
  | nil =>
      cases fuel with
      | zero => cases hok
      | succ fuel =>
          rw [routeLines, FileReader.next_of_lines_nil hread hlines] at hok
          obtain ⟨hcounts, hrest⟩ := Prod.mk.inj hok
          obtain ⟨rfl, rfl⟩ := Prod.mk.inj hrest
          obtain rfl := Except.ok.inj hcounts
          exact h
  | cons line lines ih =>
      cases fuel with
      | zero => cases hok
      | succ fuel =>
          obtain ⟨reader', hnext, hsame, hrest⟩ := FileReader.next_of_lines_cons hread hlines
          rw [routeLines, hnext] at hok
          dsimp only at hok
          cases hsplit : Record.split line with
          | error e => cases hsplit ▸ hok
          | ok r =>
              have hconfine := confine_send hash r.key line counts files t
              rcases hsend : send hash r.key line counts files t with ⟨e | counts₁, files₁, t₁⟩
              all_goals
                rw [hsend] at hconfine
                simp only [hsplit, hsend] at hok
              · cases hok
              obtain ⟨-, hwrite, howner, rfl⟩ := send_eq_ok hsend
              have hfree : Bytes.newline ∉ line := FileReader.newline_notMem_next hnext
              have hread₁ : t₁.read reader'.place = .ok contents := by
                rw [hsame, hconfine.rewritten.read_of_notMem hplace, hread]
              have hplace₁ : reader'.place ∉ files₁.places := by
                rw [hsame]
                exact hconfine.places ▸ hplace
              have hrest := ih (h.writeLine howner hfree hwrite) hread₁ hplace₁ hrest hok
              rwa [List.length_cons, Nat.add_comm lines.length, ← Nat.add_assoc]

/-- A file that was read to its end could be read. -/
theorem exists_read_of_routeLines {source : Location}
    (hok : routeLines hash path number (.ofPlace source) counts files t fuel
      = (.ok counts', files', t')) : ∃ contents, t.read source = .ok contents := by
  cases fuel with
  | zero => cases hok
  | succ fuel =>
      cases hread : t.read source with
      | error e =>
          have hnext : (FileReader.ofPlace source).next t = .error e := by
            simp only [FileReader.next, FileReader.ofPlace, List.dropWhile_nil, FileReader.readNext,
              hread]
            rfl
          rw [routeLines, hnext] at hok
          cases hok
      | ok contents => exact ⟨contents, rfl⟩

/-- So are those of all files. -/
theorem tallied_routeFiles (h : Tallied t full files counts total)
    (hinputs : ∀ input ∈ inputs, ∀ place, t.resolve input = .ok place → place ∉ files.places)
    (hok : routeFiles hash counts t files inputs = (.ok counts', files', t')) :
    ∃ ns, List.Forall₂ t.LineCount inputs ns
      ∧ Tallied t' full files' counts' (total + ns.sum) := by
  induction inputs generalizing t counts files total with
  | nil =>
      obtain ⟨hcounts, hrest⟩ := Prod.mk.inj hok
      obtain ⟨rfl, rfl⟩ := Prod.mk.inj hrest
      obtain rfl := Except.ok.inj hcounts
      exact ⟨[], .nil, h⟩
  | cons input inputs ih =>
      rw [routeFiles] at hok
      cases hopen : t.openFile input with
      | error e => cases hopen ▸ hok
      | ok source =>
          have hconfine := confine_routeLines hash input 1 (.ofPlace source) counts files t
            (lineLimit t source)
          rcases hroute : routeLines hash input 1 (.ofPlace source) counts files t
            (lineLimit t source) with ⟨e | counts₁, files₁, t₁⟩
          all_goals
            rw [hroute] at hconfine
            simp only [hopen, hroute] at hok
          · cases hok
          obtain ⟨hinput, hinputs⟩ := List.forall_mem_cons.mp hinputs
          obtain ⟨contents, hread⟩ := exists_read_of_routeLines hroute
          have hsource : source ∉ files.places := hinput source (FileTree.openFile_eq_ok hopen)
          have h₁ : Tallied t₁ full files₁ counts₁ (total + (Bytes.lines contents).length) :=
            tallied_routeLines h hread hsource rfl hroute
          have hinputs₁ : ∀ input ∈ inputs, ∀ place, t₁.resolve input = .ok place →
              place ∉ files.places := fun input hmem place hresolve =>
            hinputs input hmem place ((hconfine.rewritten.resolve input place).mp hresolve)
          obtain ⟨ns, hns, h'⟩ := ih h₁ (hconfine.places ▸ hinputs₁) hok
          refine ⟨(Bytes.lines contents).length :: ns,
            .cons ⟨source, contents, ⟨hopen, hread⟩, rfl⟩ ?_, ?_⟩
          · apply ((List.forall₂_and_left _ _).mpr ⟨hinputs₁, hns⟩).imp
            rintro input n ⟨hapart, hn⟩
            exact hn.rewritten hconfine.rewritten.symm hapart
          · rwa [List.sum_cons, ← Nat.add_assoc]

/-- **Shuffling.** When records have been sent to their owners, each output has as many lines as are
given for it, and together these are as many as the inputs have. -/
theorem run_counts (hinputs : ∀ input ∈ inputs, ∀ output ∈ outputs, t.Separate input output)
    (houtputs : outputs.Pairwise t.Separate) (hok : run hash inputs outputs t = (.ok counts, t')) :
    (∃ ns, List.Forall₂ t.LineCount inputs ns ∧ ns.sum = counts.sum)
      ∧ List.Forall₂ t'.LineCount outputs counts := by
  obtain ⟨files, t₁, files₂, t₂, files₃, t₃, hcreate, hroute, hflush, rfl⟩ := exists_of_run hok
  have hcreated := OutputFiles.created_of_create houtputs hcreate
  obtain ⟨full, hempty⟩ := hcreated.tallied
  have hapart : ∀ input ∈ inputs, ∀ place, t₁.resolve input = .ok place →
      place ∉ files.places := fun input hinput place hresolve =>
    hcreated.notMem (hinputs input hinput) ((hcreated.rewritten.resolve input place).mp hresolve)
  obtain ⟨ns, hns, htally⟩ := tallied_routeFiles hempty hapart hroute
  have hconfine := confine_routeFiles hash inputs (.replicate files.length 0) files t₁
  rw [hroute] at hconfine
  obtain ⟨hlines, hsum⟩ := hcreated.lineCounts hconfine htally hflush
  refine ⟨⟨ns, ?_, by rw [hsum, Nat.zero_add]⟩, hlines⟩
  apply ((List.forall₂_and_left _ _).mpr ⟨hapart, hns⟩).imp
  rintro input n ⟨hinput, hn⟩
  exact hn.rewritten hcreated.rewritten.symm hinput

end Shuffle

/-! ### Joining -/

namespace Combine

variable {inputs : List Path} {output : Path} {t t' : FileTree} {count : Nat}

theorem sizes_of_reads {medium : Medium} {contents : List Bytes}
    (h : Reads medium t inputs contents) : List.Forall₂ t.Size inputs (contents.map List.length) := by
  refine List.forall₂_map_right_iff.mpr (h.imp ?_)
  rintro input bs ⟨hread, -⟩
  obtain ⟨place, hstores⟩ := FileTree.stores_of_bind_read hread
  exact ⟨place, bs, hstores, rfl⟩

/-- **Joining.** When files have been joined, the output has as many bytes as are given, and these are
as many as the files have together. -/
theorem intoFile_counts (hinputs : ∀ input ∈ inputs, t.Separate input output)
    (hok : intoFile inputs output t = (.ok count, t')) :
    (∃ sizes, List.Forall₂ t.Size inputs sizes ∧ sizes.sum = count) ∧ t'.Size output count := by
  obtain ⟨place, opened, full, contents, hcreate, hreads, rfl, hholds, hrew⟩ :=
    holds_of_intoFileFrom hinputs hok
  obtain ⟨hresolve, -⟩ := FileTree.create_eq_ok hcreate
  have houtput : t'.Stores output place contents.flatten :=
    hholds.stores ((hrew.resolve _ _).mpr hresolve) (FileTree.not_endsInSlash_of_create hcreate)
  exact ⟨⟨_, sizes_of_reads hreads, List.length_flatten.symm⟩, place, _, houtput, rfl⟩

end Combine

end MapReduce
