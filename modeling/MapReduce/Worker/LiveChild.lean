import MapReduce.CommandLine.Worker
import MapReduce.Worker.Process

/-!
Child processes that run the worker command line: each command line is carried out at once, and
its answer is on the output before anything else happens.
-/
namespace MapReduce

inductive LiveChild where
  | serving (runner : TaskRunner)
  | leaving (status : ExitStatus)
  | exited (status : ExitStatus)

namespace LiveChild

def start (arguments : List Bytes) : LiveChild × Reaction :=
  match CommandLine.startWorker arguments with
  | .serving runner => (.serving runner, .silence)
  | .leaving code _ => (.leaving (.ofCode code), ⟨[], true⟩)

def statusLine (status : Status) : Bytes :=
  (Bytes.ofString status.line).terminate

def takeLine (line : Bytes) (child : LiveChild) (t : FileTree) :
    Except IoError Reaction × LiveChild × FileTree :=
  match child with
  | .exited _ => (.error .brokenPipe, child, t)
  | .leaving _ => (.ok .silence, child, t)
  | .serving runner =>
    match runner.serve line .unbounded t with
    | (.error _, out, t) => (.ok ⟨[.chunk out.contents], true⟩, .exited (.ofCode 1), t)
    | (.ok _, out, t) =>
      if line = (Bytes.ofString Command.done.line).terminate then
        (.ok ⟨[], true⟩, .exited (.ofCode 0), t)
      else (.ok (.text out.contents), child, t)

def takeEnd (child : LiveChild) (t : FileTree) : Reaction × LiveChild × FileTree :=
  match child with
  | .serving _ => (⟨[], true⟩, .exited (.ofCode 0), t)
  | _ => (.silence, child, t)

def exit? : LiveChild → Option ExitStatus
  | .serving _ => none
  | .leaving status | .exited status => some status

def stop : LiveChild → ExitStatus × LiveChild
  | .serving _ => (.ofSignal 9, .exited (.ofSignal 9))
  | .leaving status | .exited status => (status, .exited status)

instance : Child LiveChild FileTree where
  takeLine := takeLine
  takeEnd := takeEnd
  poll child := (.ok child.exit?, child)
  wait child := (.ok child.exit?, child)
  stop child := (.ok child.stop.1, child.stop.2)

end LiveChild

end MapReduce
