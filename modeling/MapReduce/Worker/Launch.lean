import MapReduce.Worker.ChildScript
import MapReduce.Worker.LiveChild

/-!
Starting the processes behind workers.
-/
namespace MapReduce

inductive AnyChild where
  | scripted (child : ScriptedChild)
  | live (child : LiveChild)

namespace AnyChild

def takeLine (line : Bytes) (child : AnyChild) (t : FileTree) :
    Except IoError Reaction × AnyChild × FileTree :=
  match child with
  | .scripted child =>
    let (result, child, t) := child.takeLine line t
    (result, .scripted child, t)
  | .live child =>
    let (result, child, t) := child.takeLine line t
    (result, .live child, t)

def takeEnd (child : AnyChild) (t : FileTree) : Reaction × AnyChild × FileTree :=
  match child with
  | .scripted child =>
    let (reaction, child, t) := child.takeEnd t
    (reaction, .scripted child, t)
  | .live child =>
    let (reaction, child, t) := child.takeEnd t
    (reaction, .live child, t)

def exit? : AnyChild → Option ExitStatus
  | .scripted child => child.exit?
  | .live child => child.exit?

def stop : AnyChild → ExitStatus × AnyChild
  | .scripted child => (child.stop.1, .scripted child.stop.2)
  | .live child => (child.stop.1, .live child.stop.2)

instance : Child AnyChild FileTree where
  takeLine := takeLine
  takeEnd := takeEnd
  poll child := (.ok child.exit?, child)
  wait child := (.ok child.exit?, child)
  stop child := (.ok child.stop.1, child.stop.2)

end AnyChild

inductive Launch where
  | script (script : ChildScript)
  | program (path : Path) (arguments : List Bytes)

namespace Launch

/-- Why nothing is started under a name without a slash. Such a name is looked up in directories
that hold no worker program; the names every directory has are found, but are no programs. -/
def searchFailure (name : Bytes) : IoError :=
  if FileTree.nameLimit < name.length then .nameTooLong
  else if name = [0x2E] ∨ name = [0x2E, 0x2E] then .accessDenied
  else .noEntry

def findProgram (path : Path) (arguments : List Bytes) (t : FileTree) : Except IoError Unit := do
  if path.contains 0 || arguments.any (·.contains 0) then
    .error (.worded .invalidInput "nul byte found in provided data")
  else if !path.contains Bytes.slash then .error (searchFailure path)
  else
    match t.get? (← t.openFile path) with
    | some .workerProgram => .ok ()
    | _ => .error .accessDenied

def start (launch : Launch) (index : Nat) (t : FileTree) :
    Except WorkerError (ProcessWorker AnyChild) × FileTree :=
  match launch with
  | .script text =>
    let (child, reaction) := ScriptedChild.start text
    (.ok (.ofChild index (.scripted child) reaction), t)
  | .program path arguments =>
    match findProgram path arguments t with
    | .error e => (.error (.spawn index path.show e), t)
    | .ok _ =>
      let (child, reaction) := LiveChild.start arguments
      (.ok (.ofChild index (.live child) reaction), t)

def diagnostics : Launch → String
  | .script _ => ""
  | .program _ arguments =>
    match CommandLine.startWorker arguments with
    | .serving _ => ""
    | .leaving _ text => text

end Launch

end MapReduce
