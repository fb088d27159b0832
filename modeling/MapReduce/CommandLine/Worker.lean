import MapReduce.CommandLine.Options
import MapReduce.Session
import MapReduce.Workload.Catalog

/-!
The command line of a worker.
-/
namespace MapReduce

structure CommandResult where
  exitCode : Nat
  output : Bytes
  diagnostics : String
  tree : FileTree

namespace CommandLine

structure WorkerSettings where
  workload : String
  /-- Seconds between heartbeats, or zero for none. -/
  heartbeat : Nat
  arguments : List String
  deriving DecidableEq, Repr

namespace WorkerSettings

def workloadOption : OptionSpec := ⟨"workload", some 'w'⟩
def heartbeatOption : OptionSpec := ⟨"heartbeat", none⟩

def grammar : Grammar WorkerSettings where
  options := [workloadOption, heartbeatOption]
  positionals := 0
  initial := ⟨"wc", 30, []⟩
  setOption spec value settings := do
    let text ← textValue value
    if spec = workloadOption then return { settings with workload := String.ofList text }
    else
      let seconds ← (Text.readCount text).mapError fun _ => .valueValidation
      return { settings with heartbeat := seconds }
  setPositional _ _ settings := .ok settings
  setTrailing words settings := do
    return { settings with arguments := ← words.mapM fun word => do
      return String.ofList (← textValue word) }

def read (arguments : List Bytes) : Except ArgumentError WorkerSettings :=
  grammar.read arguments

def aux (settings : WorkerSettings) : Bytes :=
  Bytes.ofString (" ".intercalate settings.arguments)

end WorkerSettings

def unknownWorkload (name : String) : String :=
  let known := ", ".intercalate Workload.names
  s!"the workload `{name}` is not a known workload (known: {known})"

/-- How a worker starts: serving, or leaving at once with an exit code and what it has to say. -/
inductive WorkerStart where
  | serving (runner : TaskRunner)
  | leaving (exitCode : Nat) (diagnostics : String)

def failureLine (message : String) : String := s!"Error: {message}\n"

def startWorker (arguments : List Bytes) : WorkerStart :=
  match WorkerSettings.read arguments with
  | .error .displayHelp | .error .displayVersion => .leaving 0 ""
  | .error _ => .leaving 2 ""
  | .ok settings =>
    match Workload.named? settings.workload with
    | none => .leaving 1 (failureLine (unknownWorkload settings.workload))
    | some workload => .serving ⟨workload, settings.aux⟩

def runWorker (arguments : List Bytes) (input : Bytes) (t : FileTree) : CommandResult :=
  match startWorker arguments with
  | .leaving exitCode diagnostics => ⟨exitCode, [], diagnostics, t⟩
  | .serving runner =>
    match runner.serve input .unbounded t with
    | (.ok _, out, t) => ⟨0, out.contents, "", t⟩
    | (.error e, out, t) => ⟨1, out.contents, failureLine e.message, t⟩

end CommandLine

end MapReduce
