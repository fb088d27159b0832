import MapReduce.Combine
import MapReduce.Job.Config
import MapReduce.Job.Error
import MapReduce.Job.Layout
import MapReduce.Job.Progress
import MapReduce.Partition

/-!
A whole job: shard the input, map the shards, shuffle the records, reduce the partitions, combine
the results. The first step that fails ends the job.
-/
namespace MapReduce

class HasFiles (σ : Type) where
  files : σ → FileTree
  setFiles : FileTree → σ → σ

instance : HasFiles FileTree where
  files t := t
  setFiles t _ := t

namespace FileTree

def scratchRoot : Path := Bytes.ofString "/tmp"

def scratchName (n : Nat) : Bytes :=
  Bytes.ofString "mapReduce" ++ Utf8.encode (Text.showCount n)

/-- Makes a directory with a name that is not taken. -/
def makeScratch (t : FileTree) : Except IoError (Path × FileTree) := do
  let place ← t.resolve scratchRoot
  let isFree := fun n => (t.get? (place ++ [scratchName n])).isNone
  let n := ((List.range t.nodes.length).find? isFree).getD t.nodes.length
  let path := Path.join scratchRoot (scratchName n)
  return (path, ← t.makeDirectory path)

end FileTree

namespace Job

/-- The directory for intermediate files, and whether it is to be removed when the job ends. -/
def prepare (workdir : Option Path) (t : FileTree) : Except IoError (Path × Bool × FileTree) := do
  match workdir with
  | some path =>
    let (made, t) := t.makeDirectories path
    made
    return (path, false, t)
  | none =>
    let (path, t) ← t.makeScratch
    return (path, true, t)

/-- The files that are left if the directory cannot be had: some of those above it may be there. -/
def unprepared (workdir : Option Path) (t : FileTree) : FileTree :=
  match workdir with
  | some path => (t.makeDirectories path).2
  | none => t

def cleanUp (directory : Path) (passing : Bool) (t : FileTree) : FileTree :=
  match passing, t.resolve directory with
  | true, .ok place => t.removeAll place
  | _, _ => t

variable {ω σ : Type} [HasFiles σ] [Worker ω σ]

/-- Map, shuffle and reduce on a running pool. Gives the number of records in each partition. -/
def runPhases (layout : JobLayout) (clock : JobState → Duration) (progress : JobProgress)
    (pool : Pool ω) (s : σ) : Outcome JobError (List Nat × JobProgress) × Pool ω × σ :=
  match pool.runPhase .map layout.mapInputs layout.mapOutputs s with
  | (.failed e, pool, s) => (.failed ⟨.map, .pool e⟩, pool, s)
  | (.abandoned, pool, s) => (.abandoned, pool, s)
  | (.ok _, pool, s) =>
    let progress := progress.advance clock .shuffling
    match Shuffle.run keyHash layout.mapOutputs layout.reduceInputs (HasFiles.files s) with
    | (.error e, t) => (.failed ⟨.shuffle, .shuffle e⟩, pool, HasFiles.setFiles t s)
    | (.ok counts, t) =>
      let progress := progress.advance clock .reducing
      match pool.runPhase .reduce layout.reduceInputs layout.reduceOutputs
          (HasFiles.setFiles t s) with
      | (.failed e, pool, s) => (.failed ⟨.reduce, .pool e⟩, pool, s)
      | (.abandoned, pool, s) => (.abandoned, pool, s)
      | (.ok _, pool, s) => (.ok (counts, progress), pool, s)

/-- Runs the phases and stops the workers, whether or not the phases went well. An error of the
phases hides one of the stopping. -/
def runPool (layout : JobLayout) (clock : JobState → Duration) (progress : JobProgress)
    (pool : Pool ω) (s : σ) : Outcome JobError (List Nat × JobProgress) × σ :=
  match runPhases layout clock progress pool s with
  | (.abandoned, _, s) => (.abandoned, s)
  | (phases, pool, s) =>
    match pool.close s with
    | (.abandoned, _, s) => (.abandoned, s)
    | (.failed e, _, s) =>
      match phases with
      | .ok _ => (.failed ⟨.shutdown, .pool e⟩, s)
      | failed => (failed, s)
    | (.ok _, _, s) => (phases, s)

def runWithin (directory : Path) (start : Nat → σ → Except WorkerError ω × σ)
    (clock : JobState → Duration) (progress : JobProgress) (config : JobConfig) (s : σ) :
    Outcome JobError JobReport × σ :=
  let layout := JobLayout.within directory config.workers
  let progress := progress.advance clock .sharding
  match Shard.run config.input layout.mapInputs (HasFiles.files s) with
  | (.error e, t) => (.failed ⟨.sharding, .io e⟩, HasFiles.setFiles t s)
  | (.ok shardLines, t) =>
    let progress := progress.advance clock .mapping
    match Pool.openWith config.workers start (HasFiles.setFiles t s) with
    | (.abandoned, s) => (.abandoned, s)
    | (.failed e, s) => (.failed ⟨.startup, .pool e⟩, s)
    | (.ok pool, s) =>
      match runPool layout clock progress (pool.withTaskTimeout config.taskTimeout) s with
      | (.abandoned, s) => (.abandoned, s)
      | (.failed e, s) => (.failed e, s)
      | (.ok (partitionRecords, progress), s) =>
        let progress := progress.advance clock .combining
        match Combine.intoFile layout.reduceOutputs config.output (HasFiles.files s) with
        | (.error e, t) => (.failed ⟨.combine, .io e⟩, HasFiles.setFiles t s)
        | (.ok outputBytes, t) =>
          let progress := progress.advance clock .completed
          let report : JobReport :=
            { workers := config.workers
              inputLines := JobReport.total shardLines
              shardLines
              shuffledRecords := JobReport.total partitionRecords
              partitionRecords
              outputBytes
              timings := progress.timings }
          (.ok report, HasFiles.setFiles t s)

/-- Runs a job to its end. `clock` is what the clock shows when the job enters a state. -/
def run (start : Nat → σ → Except WorkerError ω × σ) (clock : JobState → Duration)
    (config : JobConfig) (s : σ) : Outcome JobError JobReport × σ :=
  let progress := JobProgress.pending clock
  match prepare config.workdir (HasFiles.files s) with
  | .error e =>
    (.failed ⟨.setup, .io e⟩, HasFiles.setFiles (unprepared config.workdir (HasFiles.files s)) s)
  | .ok (directory, passing, t) =>
    let (outcome, s) := runWithin directory start clock progress config (HasFiles.setFiles t s)
    (outcome, HasFiles.setFiles (cleanUp directory passing (HasFiles.files s)) s)

end Job

end MapReduce
