import MapReduce.Proofs.VertexDegree
import MapReduce.Proofs.WordCountJob

/-!
# A job that finds degrees

On the bytes of a graph, a job over serving workers leaves the degree of each vertex, whatever the
number of workers is. On other bytes it fails while mapping.
-/

namespace MapReduce.Job

open VertexDegree (IsGraph edges ends entries)
open WordCount (FailsShard resultLines partitionLines)
open Workload (encodeCount countLine)

variable {runner : TaskRunner} {config : JobConfig} {directory : Path} {t t₀ t' : FileTree}
  {place : Location} {contents : Bytes} {text : List Char}

theorem failsShard_of_no_graph {n : Nat} (hn : 0 < n)
    (h : ∀ text, Utf8.decode contents = .ok text → ¬ IsGraph text) (aux : Bytes) :
    FailsShard VertexDegree.map aux n contents := by
  by_cases hcontents : Utf8.IsText contents
  · obtain ⟨text, rfl⟩ := hcontents
    exact VertexDegree.failsShard_of_not_isGraph hn (h text (Utf8.decode_encode text)) aux
  · exact VertexDegree.failsShard_of_not_isText hn hcontents aux

theorem runWithin_graph (clock : JobState → Duration) (progress : JobProgress)
    (hdirectory : directory.Unblank) (h : Workable config directory t contents place)
    (hserving : CommandLine.startWorker config.arguments = .serving runner)
    (hworkload : runner.workload = VertexDegree.workload)
    (htext : Utf8.decode contents = .ok text) (hgraph : IsGraph text)
    (hsize : contents.length < countLimit) :
    ∃ report t' places,
      runWithin directory (Launch.program config.program config.arguments).start clock progress
        config t = (.ok report, t')
      ∧ t'.get? place = some (.file
          (resultLines keyHash config.workers ((ends (edges text)).map encodeCount)).flatten)
      ∧ FileTree.Rewritten places t t' := by
  obtain ⟨workload, aux⟩ := runner
  obtain rfl : workload = VertexDegree.workload := hworkload
  obtain rfl := Utf8.encode_of_decode htext
  have hroom : ((ends (edges text)).map encodeCount).length < countLimit := by
    calc ((ends (edges text)).map encodeCount).length = (ends (edges text)).length :=
          List.length_map _
      _ ≤ text.length := VertexDegree.length_ends_le text
      _ ≤ (Utf8.encode text).length := Utf8.length_le_length_encode text
      _ < countLimit := hsize
  exact runWithin_counted clock progress hdirectory h hserving
    (VertexDegree.countsShards_of_isGraph hgraph aux config.workers) Workload.sums_vertexDegree
    (VertexDegree.flatMap_shardWords_perm config.workers_pos text) hroom

theorem runWithin_no_graph (clock : JobState → Duration) (progress : JobProgress)
    (hdirectory : directory.Unblank) (h : Workable config directory t contents place)
    (hserving : CommandLine.startWorker config.arguments = .serving runner)
    (hworkload : runner.workload = VertexDegree.workload)
    (hgraph : ∀ text, Utf8.decode contents = .ok text → ¬ IsGraph text) :
    ∃ e t',
      runWithin directory (Launch.program config.program config.arguments).start clock progress
        config t = (.failed e, t') ∧ e.phase = .map := by
  have hfails : FailsShard runner.workload.map runner.aux config.workers contents := by
    rw [hworkload]
    exact failsShard_of_no_graph config.workers_pos hgraph _
  exact runWithin_failsShard clock progress hdirectory h hserving hfails

/-- **Vertex degree.** Over serving workers, a job on the bytes of a graph succeeds and leaves one
line for each vertex, with the number of edge ends in it; together these are two for each line that
is not blank. On bytes that are no text, or a text with a line that holds no edge, it fails while
mapping. -/
theorem run_vertexDegree {passing : Bool}
    (hprepare : prepare config.workdir t = .ok (directory, passing, t₀))
    (hworkdir : ∀ path, config.workdir = some path → path.Unblank)
    (hworkable : Workable config directory t₀ contents place)
    (hkept : passing = true → ∀ stop, t₀.resolve directory = .ok stop → ¬ stop <+: place)
    (hserving : CommandLine.startWorker config.arguments = .serving runner)
    (hworkload : runner.workload = VertexDegree.workload) (hsize : contents.length < countLimit)
    (clock : JobState → Duration) :
    (∀ text, Utf8.decode contents = .ok text → IsGraph text → ∃ report t' lines,
        run (Launch.program config.program config.arguments).start clock config t
            = (.ok report, t')
          ∧ lines = resultLines keyHash config.workers ((ends (edges text)).map encodeCount)
          ∧ t'.get? place = some (.file lines.flatten)
          ∧ lines.Perm ((ends (edges text)).dedup.map fun v =>
              countLine (encodeCount v) ((ends (edges text)).count v))
          ∧ ((ends (edges text)).dedup.map fun v => (ends (edges text)).count v).sum
              = 2 * (entries text).length)
    ∧ ((∀ text, Utf8.decode contents = .ok text → ¬ IsGraph text) → ∃ e t',
        run (Launch.program config.program config.arguments).start clock config t
            = (.failed e, t') ∧ e.phase = .map) := by
  have hdirectory := unblank_of_prepare hworkdir hprepare
  constructor
  · intro text htext hgraph
    obtain ⟨report, t', places, hwithin, hfile, hrew⟩ := runWithin_graph clock (.pending clock)
      hdirectory hworkable hserving hworkload htext hgraph hsize
    refine ⟨report, cleanUp directory passing t', _, ?_, rfl, ?_, ?_, ?_⟩
    · simp only [run, HasFiles.files, HasFiles.setFiles, hprepare, hwithin]
    · rw [get?_cleanUp fun hpassing stop hstop =>
        hkept hpassing stop ((hrew.resolve directory stop).mp hstop), hfile]
    · rw [← VertexDegree.map_countLine_dedup]
      exact WordCount.flatMap_partitionLines_perm keyHash config.workers_pos _
    · rw [VertexDegree.sum_degrees, VertexDegree.length_edges hgraph]
  · intro hgraph
    obtain ⟨e, t', hwithin, hphase⟩ := runWithin_no_graph clock (.pending clock) hdirectory hworkable
      hserving hworkload hgraph
    refine ⟨e, cleanUp directory passing t', ?_, hphase⟩
    simp only [run, HasFiles.files, HasFiles.setFiles, hprepare, hwithin]

def threeEdges : FileTree :=
  ⟨[], [([], .directory), ([Bytes.ofString "worker"], .workerProgram),
    ([Bytes.ofString "work"], .directory),
    ([Bytes.ofString "in"], .file (Bytes.ofString "1 2\n \n+2 03 x\n7 7"))]⟩

def twoDegreeWorkers : JobConfig :=
  { twoWorkers with arguments := [Bytes.ofString "--workload", Bytes.ofString "vertex-degree"] }

theorem workable_threeEdges :
    Workable twoDegreeWorkers (Bytes.ofString "work") threeEdges
      (Bytes.ofString "1 2\n \n+2 03 x\n7 7") [Bytes.ofString "out"] where
  roomy := ⟨by decide +kernel, by decide +kernel⟩
  input := ⟨[Bytes.ofString "in"], by decide +kernel, by decide +kernel⟩
  input_apart := by decide +kernel
  program := by decide +kernel
  program_apart := by decide +kernel
  output := ⟨by decide +kernel, by decide +kernel, by decide +kernel⟩
  output_ordinary := by decide +kernel
  output_apart := by decide +kernel

theorem run_vertexDegree_threeEdges :
    ∃ report t' lines, run (Launch.program twoDegreeWorkers.program twoDegreeWorkers.arguments).start
        (fun _ => 0) twoDegreeWorkers threeEdges = (.ok report, t')
      ∧ t'.get? [Bytes.ofString "out"] = some (.file (List.flatten lines))
      ∧ lines.Perm [Bytes.ofString "1 1\n", Bytes.ofString "2 2\n", Bytes.ofString "3 1\n",
          Bytes.ofString "7 2\n"] := by
  have hprepare : prepare twoDegreeWorkers.workdir threeEdges
      = .ok (Bytes.ofString "work", false, threeEdges) := by decide +kernel
  have hworkdir : ∀ path, twoDegreeWorkers.workdir = some path → path.Unblank := by
    rintro path ⟨⟩
    exact Path.unblank_ofString (by decide)
  have hserving : CommandLine.startWorker twoDegreeWorkers.arguments
      = .serving ⟨VertexDegree.workload, []⟩ := by rfl
  obtain ⟨report, t', lines, hrun, -, hfile, hlines, -⟩ := (run_vertexDegree hprepare hworkdir
    workable_threeEdges (by simp) hserving rfl (by decide +kernel) fun _ => 0).1
    "1 2\n \n+2 03 x\n7 7".toList (Utf8.decode_encode _) (by decide +kernel)
  have hdegrees : (ends (edges "1 2\n \n+2 03 x\n7 7".toList)).dedup.map (fun v =>
      countLine (encodeCount v) ((ends (edges "1 2\n \n+2 03 x\n7 7".toList)).count v))
      = [Bytes.ofString "1 1\n", Bytes.ofString "2 2\n", Bytes.ofString "3 1\n",
          Bytes.ofString "7 2\n"] := by decide +kernel
  exact ⟨report, t', lines, hrun, hfile, hdegrees ▸ hlines⟩

end MapReduce.Job
