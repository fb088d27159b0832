import MapReduce.CommandLine.Worker
import MapReduce.Job
import MapReduce.Worker.Launch

/-!
The command line of a coordinator.
-/
namespace MapReduce.CommandLine

structure CoordinatorSettings where
  worker : Path
  workers : Nat
  input : Path
  output : Path
  /-- Seconds to wait for each task, or zero to wait forever. -/
  taskTimeout : Nat
  workdir : Option Path
  report : Option Path
  workerArguments : List String
  deriving DecidableEq, Repr

namespace CoordinatorSettings

def timeoutOption : OptionSpec := ⟨"task-timeout", some 't'⟩
def workdirOption : OptionSpec := ⟨"workdir", some 'd'⟩
def reportOption : OptionSpec := ⟨"report", some 'r'⟩

/-- One more than the largest number of workers. -/
def workersLimit : Nat := 0x100000000

def countValue (value : Bytes) : Except ArgumentError Nat := do
  (Text.readCount (← textValue value)).mapError fun _ => .valueValidation

def workersValue (value : Bytes) : Except ArgumentError Nat := do
  let n ← countValue value
  if 0 < n ∧ n < workersLimit then return n else .error .valueValidation

def setOption (spec : OptionSpec) (value : Bytes) (settings : CoordinatorSettings) :
    Except ArgumentError CoordinatorSettings := do
  if spec = timeoutOption then return { settings with taskTimeout := ← countValue value }
  else if spec = workdirOption then return { settings with workdir := some (← pathValue value) }
  else return { settings with report := some (← pathValue value) }

def setPositional (index : Nat) (value : Bytes) (settings : CoordinatorSettings) :
    Except ArgumentError CoordinatorSettings := do
  match index with
  | 0 => return { settings with worker := ← pathValue value }
  | 1 => return { settings with workers := ← workersValue value }
  | 2 => return { settings with input := ← pathValue value }
  | _ => return { settings with output := ← pathValue value }

def grammar : Grammar CoordinatorSettings where
  options := [timeoutOption, workdirOption, reportOption]
  positionals := 4
  initial := ⟨[], 0, [], [], 0, none, none, []⟩
  setOption := setOption
  setPositional := setPositional
  setTrailing words settings := do
    return { settings with workerArguments := ← words.mapM fun word => do
      return String.ofList (← textValue word) }

def read (arguments : List Bytes) : Except ArgumentError CoordinatorSettings :=
  grammar.read arguments

def config (settings : CoordinatorSettings) : Except ConfigError JobConfig := do
  let config ← JobConfig.create settings.worker settings.workers settings.input settings.output
  let limit := if settings.taskTimeout = 0 then none else some (.ofSeconds settings.taskTimeout)
  return ((config.withArguments (settings.workerArguments.map Bytes.ofString)).withTaskTimeout
    limit).withWorkdir settings.workdir

end CoordinatorSettings

/-- A message of several lines under its number, if it has one. -/
def causeText (number : Option Nat) (message : String) : String :=
  let lines := (splitWhere (· == '\n') message.toList).map String.ofList
  match number with
  | none => "\n".intercalate (lines.map ("    " ++ ·))
  | some n =>
    let digits := s!"{n}"
    let label := String.ofList (List.replicate (5 - digits.length) ' ') ++ digits ++ ": "
    label ++ ("\n" ++ "       ").intercalate lines

def failureText (message : String) (causes : List String) : String :=
  let listed := match causes with
    | [] => ""
    | [cause] => "\n\nCaused by:\n" ++ causeText none cause
    | causes =>
      "\n\nCaused by:\n" ++
        "\n".intercalate (causes.zipIdx.map fun (cause, number) => causeText (some number) cause)
  s!"Error: {message}{listed}\n"

def writeFile (path : Path) (contents : Bytes) (t : FileTree) : Except IoError Unit × FileTree :=
  match t.create path with
  | .error e => (.error e, t)
  | .ok (place, t) =>
    let (result, out) := (t.sinkAt place).write contents
    (result, t.writeAt place 0 out.contents)

/-- What the workers of a failed job have said, in front of what the job says. -/
def workerDiagnostics (launch : Launch) (workers : Nat) (phase : Phase) : String :=
  if phase.hasWorkers ∧ launch.diagnostics ≠ "" then
    String.join (List.replicate workers launch.diagnostics)
  else ""

/-- Runs a job and writes its report. `clock` is what the clock shows when a state is entered. -/
def runCoordinator (arguments : List Bytes) (clock : JobState → Duration) (t : FileTree) :
    CommandResult :=
  match CoordinatorSettings.read arguments with
  | .error .displayHelp | .error .displayVersion => ⟨0, [], "", t⟩
  | .error _ => ⟨2, [], "", t⟩
  | .ok settings =>
    match settings.config with
    | .error e => ⟨1, [], failureText e.message [], t⟩
    | .ok config =>
      let launch := Launch.program config.program config.arguments
      match Job.run launch.start clock config t with
      | (.abandoned, t) => ⟨1, [], "", t⟩
      | (.failed e, t) =>
        let said := workerDiagnostics launch config.workers e.phase
        ⟨1, [], said ++ failureText e.message e.causes, t⟩
      | (.ok report, t) =>
        match settings.report with
        | none => ⟨0, [], "", t⟩
        | some path =>
          match writeFile path (Bytes.ofString report.json) t with
          | (.ok _, t) => ⟨0, [], "", t⟩
          | (.error e, t) =>
            ⟨1, [], failureText s!"failed to write report to {path.show}" [e.message], t⟩

end MapReduce.CommandLine
