import MapReduce.FileTree
import MapReduce.Worker.Process

/-!
Child processes that follow a script.
-/
namespace MapReduce

structure ScriptedAnswer where
  closesInput : Bool
  /-- Whether the line is sent back as the message of a failure. -/
  echoes : Bool
  output : Bytes
  exitCode : Option Nat
  hangs : Bool
  deriving DecidableEq, Repr

structure ChildScript where
  greeting : Bytes
  /-- Answers to command lines in turn; lines past the end are ignored. -/
  answers : List ScriptedAnswer
  farewell : Bytes
  exitCode : Nat
  signal : Option Nat
  deriving DecidableEq, Repr

inductive ScriptedChild where
  | reading (script : ChildScript)
  /-- The child never acts again; whether its input is still open. -/
  | stuck (inputOpen : Bool)
  | exited (status : ExitStatus)
  deriving DecidableEq, Repr

namespace ScriptedChild

def start (script : ChildScript) : ScriptedChild × Reaction :=
  (.reading script, .text script.greeting)

def perform (script : ChildScript) (line : Bytes) (answer : ScriptedAnswer) :
    Reaction × ScriptedChild :=
  let echo := if answer.echoes then Bytes.ofString "error: " ++ line else []
  let output := .chunk (echo ++ answer.output)
  match answer.exitCode with
  | some code => (⟨[output], true⟩, .exited (.ofCode code))
  | none =>
    if answer.hangs || answer.closesInput then (⟨[output], false⟩, .stuck (!answer.closesInput))
    else (⟨[output], false⟩, .reading script)

def takeLine (line : Bytes) (child : ScriptedChild) (t : FileTree) :
    Except IoError Reaction × ScriptedChild × FileTree :=
  match child with
  | .exited _ | .stuck false => (.error .brokenPipe, child, t)
  | .stuck true => (.ok .silence, child, t)
  | .reading script =>
    if line = (Bytes.ofString "done").terminate then
      let status := match script.signal with
        | some signal => .ofSignal signal
        | none => .ofCode script.exitCode
      (.ok ⟨[.chunk script.farewell], true⟩, .exited status, t)
    else
      match script.answers with
      | [] => (.ok .silence, child, t)
      | answer :: answers =>
        let (reaction, child) := perform { script with answers } line answer
        (.ok reaction, child, t)

def takeEnd (child : ScriptedChild) (t : FileTree) : Reaction × ScriptedChild × FileTree :=
  match child with
  | .reading script => (⟨[], true⟩, .exited (.ofCode script.exitCode), t)
  | _ => (.silence, child, t)

def exit? : ScriptedChild → Option ExitStatus
  | .exited status => some status
  | _ => none

def stop : ScriptedChild → ExitStatus × ScriptedChild
  | .exited status => (status, .exited status)
  | _ => (.ofSignal 9, .exited (.ofSignal 9))

instance : Child ScriptedChild FileTree where
  takeLine := takeLine
  takeEnd := takeEnd
  poll child := (.ok child.exit?, child)
  wait child := (.ok child.exit?, child)
  stop child := (.ok child.stop.1, child.stop.2)

end ScriptedChild

end MapReduce
