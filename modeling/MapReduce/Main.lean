import MapReduce.CommandLine.Coordinator

/-!
The program: `worker` answers command lines on its standard input, `coordinator` runs a job whose
workers are carried out in the same process. What a command can touch is read from the disk before
it runs, and what it changed is written back.
-/
namespace MapReduce.Main

def nodeAt (path : Path) : IO (Option Node) := do
  let place := (← IO.currentDir) / path.show
  if ← place.isDir then return some .directory
  else if path.show = "/dev/full" then return some .fullDevice
  else if ← place.pathExists then
    return some (.file (← IO.FS.readBinFile place).toList)
  else return none

/-- A path and the directories on the way to it, the outermost first. -/
def stages (path : Path) : List Path :=
  let origin : Path := if path.isAbsolute then [Bytes.slash] else [0x2E]
  (List.range (path.names.length + 1)).map fun n => (path.names.take n).foldl Path.join origin

def lookAt (t : FileTree) (path : Path) : IO FileTree :=
  (stages path).foldlM (fun t stage => do
    match t.resolve stage with
    | .error _ => return t
    | .ok place =>
      match t.get? place, ← nodeAt stage with
      | none, some node => return t.put place node
      | _, _ => return t) t

def initialTree : IO FileTree := do
  let here := Bytes.ofString (← IO.currentDir).toString
  let program := Bytes.ofString (← IO.appPath).toString
  let bare : FileTree := ⟨Path.names here, [(Path.names program, .workerProgram)]⟩
  [here, program].foldlM lookAt bare

def writeBack (before after : FileTree) : IO Unit :=
  after.nodes.forM fun (place, node) => do
    let path := "/" ++ "/".intercalate (place.map Bytes.show)
    if before.get? place ≠ some node then
      match node with
      | .directory => IO.FS.createDir path
      | .file contents => IO.FS.writeBinFile path (ByteArray.mk contents.toArray)
      | .fullDevice | .workerProgram => return

def write (stream : IO.FS.Stream) (bs : Bytes) : IO Unit := do
  stream.write (ByteArray.mk bs.toArray)
  stream.flush

def namedFiles (line : Bytes) : List Path :=
  match Command.parse line.show with
  | .ok (.run task) => [task.input, task.output]
  | _ => []

/-- Carries out lines of the standard input until the worker leaves. -/
partial def serveInput (child : LiveChild) : IO UInt32 := do
  let line := (← (← IO.getStdin).getLine).toUTF8.toList
  let before ← (namedFiles line).foldlM lookAt (← initialTree)
  let (reaction, child, after) :=
    if line.isEmpty then
      let (reaction, child, t) := child.takeEnd before
      (Except.ok reaction, child, t)
    else child.takeLine line before
  writeBack before after
  if let .ok reaction := reaction then
    for arrival in reaction.arrivals do
      if let .chunk bs := arrival then write (← IO.getStdout) bs
  match child.exit? with
  | some status => return UInt32.ofNat status.code
  | none => serveInput child

/-- Writes a beat at the end of each period, which is counted in tenths of a second. -/
partial def beat (period passed : Nat) : IO Unit := do
  if ← IO.checkCanceled then return
  IO.sleep 100
  if passed + 1 < period then beat period (passed + 1)
  else
    write (← IO.getStdout) (Bytes.ofString Heartbeat.line).terminate
    beat period 0

def worker (arguments : List Bytes) : IO UInt32 := do
  match CommandLine.WorkerSettings.read arguments, CommandLine.startWorker arguments with
  | .ok settings, .serving runner =>
    if settings.heartbeat = 0 then serveInput (.serving runner)
    else
      let beating ← IO.asTask (beat (settings.heartbeat * 10) 0)
      let exitCode ← serveInput (.serving runner)
      IO.cancel beating
      return exitCode
  | _, .leaving exitCode diagnostics =>
    IO.eprint diagnostics
    return UInt32.ofNat exitCode
  | _, _ => return 2

def jobFiles (settings : CommandLine.CoordinatorSettings) : List Path :=
  let layout := JobLayout.within (settings.workdir.getD []) settings.workers
  [FileTree.scratchRoot, settings.input, settings.output] ++ settings.workdir.toList ++
    settings.report.toList ++ layout.mapInputs ++ layout.mapOutputs ++ layout.reduceInputs ++
    layout.reduceOutputs

def coordinator (arguments : List Bytes) : IO UInt32 := do
  let files := match CommandLine.CoordinatorSettings.read arguments with
    | .ok settings => jobFiles settings
    | .error _ => []
  let before ← files.foldlM lookAt (← initialTree)
  let result := CommandLine.runCoordinator arguments (fun _ => 0) before
  writeBack before result.tree
  write (← IO.getStdout) result.output
  IO.eprint result.diagnostics
  return UInt32.ofNat result.exitCode

end MapReduce.Main

def main (arguments : List String) : IO UInt32 :=
  match arguments with
  | "worker" :: rest => MapReduce.Main.worker (rest.map MapReduce.Bytes.ofString)
  | "coordinator" :: rest => MapReduce.Main.coordinator (rest.map MapReduce.Bytes.ofString)
  | _ => do
    IO.eprintln "usage: worker ARGUMENTS | coordinator ARGUMENTS"
    return 2
