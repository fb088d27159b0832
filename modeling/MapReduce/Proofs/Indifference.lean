import MapReduce.Proofs.Variant

/-!
# Stages are indifferent to old files

A stage that succeeds on one tree succeeds, with the same result, on every variant of it that agrees
on the inputs of the stage. Afterwards the two agree on its outputs as well.
-/

namespace MapReduce

open FileTree (Touched Variant)

variable {t t' t₁ : FileTree} {A : Set Location} {input output : Path} {inputs outputs : List Path}

/-! ### Sharding -/

namespace Shard

theorem deal_variant {files files₁ : OutputFiles} {next : Nat} {counts : List Nat}
    {lines : List Bytes} {result : Except (Abort IoError) (List Nat)} (h : Variant A t t')
    (hfiles : OutputFiles.Within A files)
    (hdeal : deal next counts files t lines = (result, files₁, t₁)) :
    ∃ t₁', deal next counts files t' lines = (result, files₁, t₁') ∧ Variant A t₁ t₁' := by
  induction lines generalizing next counts files t t' with
  | nil =>
      obtain ⟨rfl, rfl, rfl⟩ := hdeal
      exact ⟨t', rfl, h⟩
  | cons line lines ih =>
      have hconfine := OutputFiles.confine_writeCounted next line counts t files
      rcases hone : files.writeCounted next line counts t with ⟨e | counts', files', u⟩
      all_goals
        obtain ⟨u', hone', hu⟩ := OutputFiles.writeCounted_variant h hfiles hone
        rw [hone] at hconfine
        simp only [deal, hone, hone'] at hdeal ⊢
      · obtain ⟨rfl, rfl, rfl⟩ := hdeal
        exact ⟨u', rfl, hu⟩
      · exact ih hu (hconfine.within hfiles) hdeal

theorem run_variant (h : Variant A t t') (hinput : t.placesOf [input] ⊆ A)
    {counts : List Nat} (hrun : run input outputs t = (.ok counts, t₁)) :
    ∃ t₁', run input outputs t' = (.ok counts, t₁')
      ∧ Variant (A ∪ t.placesOf outputs) t₁ t₁' := by
  rw [run] at hrun ⊢
  rcases hopen : t.openFile input with e | source
  · rw [hopen] at hrun
    cases hrun
  · obtain ⟨hsource, hopen'⟩ := h.openFile hinput hopen
    simp only [hopen, hopen'] at hrun ⊢
    rcases hcreate : OutputFiles.create outputs t with ⟨e | files, u⟩
    · rw [hcreate] at hrun
      cases hrun
    · obtain ⟨u', hcreate', hu, hwithin⟩ := OutputFiles.create_variant h hcreate
      have hfiles : OutputFiles.Within (A ∪ t.placesOf outputs) files :=
        fun q hq => Or.inr (hwithin q hq)
      simp only [hcreate, hcreate', hu.read_eq (Or.inl hsource)] at hrun ⊢
      rcases hread : u.read source with e | contents
      · simp only [hread] at hrun
        cases hrun
      · simp only [hread] at hrun ⊢
        have hconfine := confine_deal 0 (.replicate files.length 0) files u (readLines contents)
        rcases hdeal : deal 0 (.replicate files.length 0) files u (readLines contents)
          with ⟨e | counts', files', v⟩
        · simp only [hdeal] at hrun
          cases hrun
        · obtain ⟨v', hdeal', hv⟩ := deal_variant hu hfiles hdeal
          rw [hdeal] at hconfine
          simp only [hdeal, hdeal'] at hrun ⊢
          rcases hflush : files'.flush v with ⟨r, files'', w⟩
          obtain ⟨w', hflush', hclosed⟩ := OutputFiles.flush_close_variant hv
            (hconfine.within hfiles) hflush
          simp only [hflush, hflush'] at hrun ⊢
          obtain ⟨hcounts, rfl⟩ := Prod.mk.inj hrun
          exact ⟨_, by rw [hcounts], hclosed⟩

end Shard

/-! ### Shuffling -/

theorem FileReader.next_variant (h : Variant A t t') {reader : FileReader}
    (hreader : reader.place ∈ A) : reader.next t' = reader.next t := by
  simp only [next, readNext, h.read_eq hreader]

theorem FileReader.place_of_next {reader reader' : FileReader} {line : Bytes}
    (h : reader.next t = .ok (some (line, reader'))) : reader'.place = reader.place := by
  unfold next at h
  split at h
  · obtain ⟨contents, -, hnext⟩ := bind_eq_ok.mp h
    obtain ⟨⟨l, rest⟩, -, hreader⟩ := Option.map_eq_some_iff.mp (Except.ok.inj hnext)
    rw [← (Prod.mk.inj hreader).2]
  · rw [← (Prod.mk.inj (Option.some.inj (Except.ok.inj h))).2]

namespace Shuffle

variable {hash : Bytes → Nat} {files files₁ : OutputFiles} {counts : List Nat}
  {result : Except (Abort ShuffleError) (List Nat)}

theorem send_variant (h : Variant A t t') (hfiles : OutputFiles.Within A files) {key line : Bytes}
    (hsend : send hash key line counts files t = (result, files₁, t₁)) :
    ∃ t₁', send hash key line counts files t' = (result, files₁, t₁') ∧ Variant A t₁ t₁' := by
  rw [send] at hsend ⊢
  cases hpartition : partitionOf hash key files.length with
  | error e =>
      simp only [hpartition] at hsend ⊢
      obtain ⟨rfl, rfl, rfl⟩ := hsend
      exact ⟨t', rfl, h⟩
  | ok owner =>
      rcases hwrite : files.writeCounted owner line counts t with ⟨counted, files', u⟩
      obtain ⟨u', hwrite', hu⟩ := OutputFiles.writeCounted_variant h hfiles hwrite
      simp only [hpartition, hwrite, hwrite'] at hsend ⊢
      obtain ⟨rfl, rfl, rfl⟩ := hsend
      exact ⟨u', rfl, hu⟩

theorem routeLines_variant (h : Variant A t t') (hfiles : OutputFiles.Within A files)
    {path : Path} {number fuel : Nat} {reader : FileReader} (hreader : reader.place ∈ A)
    (hroute : routeLines hash path number reader counts files t fuel = (result, files₁, t₁)) :
    ∃ t₁', routeLines hash path number reader counts files t' fuel = (result, files₁, t₁')
      ∧ Variant A t₁ t₁' := by
  induction fuel generalizing number reader counts files t t' with
  | zero =>
      obtain ⟨rfl, rfl, rfl⟩ := hroute
      exact ⟨t', rfl, h⟩
  | succ fuel ih =>
      rw [routeLines] at hroute ⊢
      rw [FileReader.next_variant h hreader]
      rcases hnext : reader.next t with e | _ | ⟨line, reader'⟩
      · rw [hnext] at hroute
        obtain ⟨rfl, rfl, rfl⟩ := hroute
        exact ⟨t', rfl, h⟩
      · rw [hnext] at hroute
        obtain ⟨rfl, rfl, rfl⟩ := hroute
        exact ⟨t', rfl, h⟩
      · rw [hnext] at hroute
        rcases hsplit : Record.split line with e | record
        · simp only [hsplit] at hroute ⊢
          obtain ⟨rfl, rfl, rfl⟩ := hroute
          exact ⟨t', rfl, h⟩
        · have hconfine := confine_send hash record.key line counts files t
          simp only [hsplit] at hroute ⊢
          rcases hsend : send hash record.key line counts files t with ⟨e | counts', files', u⟩
          all_goals
            obtain ⟨u', hsend', hu⟩ := send_variant h hfiles hsend
            rw [hsend] at hconfine
            simp only [hsend, hsend'] at hroute ⊢
          · obtain ⟨rfl, rfl, rfl⟩ := hroute
            exact ⟨u', rfl, hu⟩
          · exact ih hu (hconfine.within hfiles) (FileReader.place_of_next hnext ▸ hreader) hroute

theorem routeFiles_variant (h : Variant A t t') (hfiles : OutputFiles.Within A files)
    (hinputs : t.placesOf inputs ⊆ A) {counts' : List Nat}
    (hroute : routeFiles hash counts t files inputs = (.ok counts', files₁, t₁)) :
    ∃ t₁', routeFiles hash counts t' files inputs = (.ok counts', files₁, t₁')
      ∧ Variant A t₁ t₁' := by
  induction inputs generalizing counts files t t' with
  | nil =>
      obtain ⟨hcounts, hrest⟩ := Prod.mk.inj hroute
      obtain ⟨rfl, rfl⟩ := Prod.mk.inj hrest
      exact ⟨t', by rw [routeFiles, hcounts], h⟩
  | cons path inputs ih =>
      rw [t.placesOf_cons, Set.union_subset_iff] at hinputs
      rw [routeFiles] at hroute ⊢
      rcases hopen : t.openFile path with e | source
      · rw [hopen] at hroute
        cases hroute
      · obtain ⟨hsource, hopen'⟩ := h.openFile hinputs.1 hopen
        have hlimit : lineLimit t' source = lineLimit t source := by
          rw [lineLimit, lineLimit, h.read_eq hsource]
        have hconfine := confine_routeLines hash path 1 (.ofPlace source) counts files t
          (lineLimit t source)
        simp only [hopen, hopen', hlimit] at hroute ⊢
        rcases hone : routeLines hash path 1 (.ofPlace source) counts files t (lineLimit t source)
          with ⟨e | counts₁, files', u⟩
        · simp only [hone] at hroute
          cases hroute
        · obtain ⟨u', hone', hu⟩ := routeLines_variant h hfiles hsource hone
          rw [hone] at hconfine
          simp only [hone, hone'] at hroute ⊢
          refine ih hu (hconfine.within hfiles) ?_ hroute
          rw [hconfine.rewritten.placesOf_eq]
          exact hinputs.2

theorem run_variant (h : Variant A t t') (hinputs : t.placesOf inputs ⊆ A) {counts : List Nat}
    (hrun : run hash inputs outputs t = (.ok counts, t₁)) :
    ∃ t₁', run hash inputs outputs t' = (.ok counts, t₁')
      ∧ Variant (A ∪ t.placesOf outputs) t₁ t₁' := by
  rw [run, attempt] at hrun ⊢
  rcases hcreate : OutputFiles.create outputs t with ⟨e | files, u⟩
  · rw [hcreate] at hrun
    cases hrun
  · obtain ⟨u', hcreate', hu, hwithin⟩ := OutputFiles.create_variant h hcreate
    have htouched := OutputFiles.touched_create outputs t
    have hfiles : OutputFiles.Within (A ∪ t.placesOf outputs) files :=
      fun q hq => Or.inr (hwithin q hq)
    rw [hcreate] at htouched
    have hinputs' : u.placesOf inputs ⊆ A ∪ t.placesOf outputs := by
      rw [htouched.placesOf_eq]
      exact hinputs.trans Set.subset_union_left
    have hconfine := confine_routeFiles hash inputs (.replicate files.length 0) files u
    simp only [hcreate, hcreate'] at hrun ⊢
    rcases hroute : routeFiles hash (.replicate files.length 0) u files inputs
      with ⟨e | counts', files', v⟩
    · simp only [hroute] at hrun
      cases hrun
    · obtain ⟨v', hroute', hv⟩ := routeFiles_variant hu hfiles hinputs' hroute
      rw [hroute] at hconfine
      simp only [hroute, hroute'] at hrun ⊢
      rcases hflush : files'.flush v with ⟨r, files'', w⟩
      obtain ⟨w', hflush', hclosed⟩ := OutputFiles.flush_close_variant hv
        (hconfine.within hfiles) hflush
      simp only [hflush, hflush'] at hrun ⊢
      obtain ⟨hcounts, rfl⟩ := Prod.mk.inj hrun
      exact ⟨_, by rw [hcounts], hclosed⟩

end Shuffle

/-! ### Combining -/

namespace Combine

theorem copyAll_variant (h : Variant A t t') (hinputs : t.placesOf inputs ⊆ A) {medium : Medium}
    {W : Type} [Writer W] {total n : Nat} {w w₁ : W}
    (hcopy : copyAll medium t total w inputs = (.ok n, w₁)) :
    copyAll medium t' total w inputs = (.ok n, w₁) := by
  induction inputs generalizing total w with
  | nil => exact hcopy
  | cons path inputs ih =>
      rw [t.placesOf_cons, Set.union_subset_iff] at hinputs
      rw [copyAll] at hcopy ⊢
      rcases hopen : t.openFile path with e | source
      · rw [hopen] at hcopy
        cases hcopy
      · obtain ⟨hsource, hopen'⟩ := h.openFile hinputs.1 hopen
        simp only [hopen, hopen', h.read_eq hsource] at hcopy ⊢
        rcases hone : Writer.copy (medium.readout source (t.read source)) w with ⟨e | count, w'⟩
        all_goals simp only [hone] at hcopy ⊢
        · cases hcopy
        · exact ih hinputs.2 hcopy

theorem intoFile_variant (h : Variant A t t') (hinputs : t.placesOf inputs ⊆ A) {n : Nat}
    (hcombine : intoFile inputs output t = (.ok n, t₁)) :
    ∃ t₁', intoFile inputs output t' = (.ok n, t₁')
      ∧ Variant (A ∪ t.placesOf [output]) t₁ t₁' := by
  rw [intoFile, intoFileFrom] at hcombine ⊢
  rcases hcreate : t.create output with e | ⟨place, u⟩
  · rw [hcreate] at hcombine
    cases hcombine
  · obtain ⟨u', hcreate', hu, hplace⟩ := h.create hcreate
    have hinputs' : u.placesOf inputs ⊆ A ∪ t.placesOf [output] := by
      rw [(Touched.of_create hcreate).placesOf_eq]
      exact hinputs.trans Set.subset_union_left
    rcases hcopy : intoWriter .sound inputs (BlockWriter.ofSink (u.sinkAt place)) u with ⟨e | n', w⟩
    · simp only [hcreate, hcopy] at hcombine
      cases hcombine
    · have hcopy' : intoWriter .sound inputs (BlockWriter.ofSink (u'.sinkAt place)) u'
          = (.ok n', w) := by
        rw [hu.sinkAt_eq]
        exact copyAll_variant hu hinputs' hcopy
      simp only [hcreate, hcreate', hcopy, hcopy'] at hcombine ⊢
      obtain ⟨rfl, rfl⟩ := hcombine
      exact ⟨_, rfl, hu.writeAt (Or.inr hplace) 0 _⟩

end Combine

/-! ### Tasks -/

theorem MapTask.run_variant {map : MapFunction} {aux : Bytes} (h : Variant A t t')
    (hinput : t.placesOf [input] ⊆ A) {n : Nat}
    (hrun : MapTask.run map aux input output t = (.ok n, t₁)) :
    ∃ t₁', MapTask.run map aux input output t' = (.ok n, t₁')
      ∧ Variant (A ∪ t.placesOf [output]) t₁ t₁' := by
  rw [MapTask.run] at hrun ⊢
  rcases hread : t.openFile input >>= t.read with e | contents
  · rw [hread] at hrun
    cases hrun
  · obtain ⟨source, hopen, hcontents⟩ := bind_eq_ok.mp hread
    obtain ⟨hsource, hopen'⟩ := h.openFile hinput hopen
    have hread' : t'.openFile input >>= t'.read = .ok contents :=
      bind_eq_ok.mpr ⟨source, hopen', (h.read_eq hsource).trans hcontents⟩
    rcases hcreate : t.create output with e | ⟨place, u⟩
    · simp only [hread, hcreate] at hrun
      cases hrun
    · obtain ⟨u', hcreate', hu, hplace⟩ := h.create hcreate
      simp only [hread, hread', hcreate, hcreate', hu.sinkAt_eq] at hrun ⊢
      split at hrun
      · cases hrun
      · obtain ⟨hn, rfl⟩ := Prod.mk.inj hrun
        exact ⟨_, by rw [hn], hu.writeAt (Or.inr hplace) 0 _⟩

theorem ReduceTask.runThrough_variant {sorter : Sorter} {reduce : ReduceFunction} {aux : Bytes}
    (h : Variant A t t') (hinput : t.placesOf [input] ⊆ A) {n : Nat}
    (hrun : ReduceTask.runThrough sorter reduce aux input output t = (.ok n, t₁)) :
    ∃ t₁', ReduceTask.runThrough sorter reduce aux input output t' = (.ok n, t₁')
      ∧ Variant (A ∪ t.placesOf [output]) t₁ t₁' := by
  rw [ReduceTask.runThrough] at hrun ⊢
  rcases hopen : t.openFile input with e | source
  · rw [hopen] at hrun
    cases hrun
  · obtain ⟨hsource, hopen'⟩ := h.openFile hinput hopen
    rcases hscratch : t.checkScratch (directoryOf output) with e | _
    · simp only [hopen, hscratch] at hrun
      cases hrun
    · have hscratch' := h.checkScratch hscratch
      simp only [hopen, hopen', hscratch, hscratch', h.read_eq hsource] at hrun ⊢
      rcases hsort : sorter.sort (t.read source >>= readLines) with e | given
      · simp only [hsort] at hrun
        cases hrun
      · rcases hcreate : t.create output with e | ⟨place, u⟩
        · simp only [hsort, hcreate] at hrun
          cases hrun
        · obtain ⟨u', hcreate', hu, hplace⟩ := h.create hcreate
          simp only [hsort, hcreate, hcreate', hu.sinkAt_eq] at hrun ⊢
          obtain ⟨hn, rfl⟩ := Prod.mk.inj hrun
          exact ⟨_, by rw [hn], hu.writeAt (Or.inr hplace) 0 _⟩

namespace TaskRunner

variable {runner : TaskRunner} {task : Task}

/-- A task that succeeds does so whatever else the tree holds, and writes the same. -/
theorem run_variant (h : Variant A t t') (hinput : t.placesOf [task.input] ⊆ A) {n : Nat}
    (hrun : runner.run task t = (.ok n, t₁)) :
    ∃ t₁', runner.run task t' = (.ok n, t₁') ∧ Variant (A ∪ t.placesOf [task.output]) t₁ t₁' := by
  rw [run] at hrun ⊢
  cases hkind : task.kind with
  | map =>
      rw [hkind] at hrun
      exact MapTask.run_variant h hinput hrun
  | reduce =>
      rw [hkind] at hrun
      exact ReduceTask.runThrough_variant h hinput hrun

/-- A task leaves everything but its output file as it was. -/
theorem variant_of_run (runner : TaskRunner) (task : Task) (t : FileTree) :
    Variant (t.placesOf [task.output])ᶜ t (runner.run task t).2 := by
  rw [run]
  cases task.kind with
  | map =>
      simp only [MapTask.run]
      cases t.openFile task.input >>= t.read with
      | error e => exact .refl _ _
      | ok contents =>
          rcases hcreate : t.create task.output with e | ⟨place, u⟩
          · exact .refl _ _
          · dsimp only
            split
            · exact FileTree.variant_of_create hcreate
            · exact FileTree.variant_of_written hcreate 0 _
  | reduce =>
      simp only [ReduceTask.run, ReduceTask.runThrough]
      cases t.openFile task.input with
      | error e => exact .refl _ _
      | ok source =>
          cases t.checkScratch (ReduceTask.directoryOf task.output) with
          | error e => exact .refl _ _
          | ok _ =>
              dsimp only
              split
              · exact .refl _ _
              · rcases hcreate : t.create task.output with e | ⟨place, u⟩
                · exact .refl _ _
                · exact FileTree.variant_of_written hcreate 0 _

end TaskRunner

end MapReduce
