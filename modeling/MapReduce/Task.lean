import MapReduce.Text.Blank
import MapReduce.Text.Quoted

/-!
The commands that a coordinator writes to a worker, one on each line.
-/
namespace MapReduce

inductive TaskKind where
  | map
  | reduce
  deriving DecidableEq, Repr

def TaskKind.name : TaskKind → String
  | .map => "map"
  | .reduce => "reduce"

structure Task where
  kind : TaskKind
  input : Path
  output : Path
  deriving DecidableEq, Repr

inductive CommandError where
  | empty
  | unknown (line : String)
  | wrongArity (command : String) (expected got : Nat)
  | unsendablePath (path : Path)
  deriving DecidableEq, Repr

def CommandError.message : CommandError → String
  | .empty => "empty command"
  | .unknown line => s!"unrecognized command {Text.quote line.toList}"
  | .wrongArity command expected got => s!"`{command}` expects {expected} argument(s), got {got}"
  | .unsendablePath path => s!"path {Text.quotePath path} cannot be sent over the control pipe"

inductive Command where
  | run (task : Task)
  | done
  deriving DecidableEq, Repr

namespace Command

/-- Whether a path survives as one word of a command line. -/
def isSendable (path : Path) : Bool :=
  match Utf8.decode path with
  | .ok cs => !cs.isEmpty && !cs.any Text.isBlank
  | .error _ => false

/-- The command for a task, if its paths can be sent; the input is looked at first. -/
def ofTask (task : Task) : Except CommandError Command :=
  if !isSendable task.input then .error (.unsendablePath task.input)
  else if !isSendable task.output then .error (.unsendablePath task.output)
  else .ok (.run task)

def line : Command → String
  | .run task => s!"{task.kind.name} {task.input.show} {task.output.show}"
  | .done => "done"

def ofArguments (kind : TaskKind) (arguments : List (List Char)) : Except CommandError Command :=
  match arguments with
  | [input, output] => .ok (.run ⟨kind, Utf8.encode input, Utf8.encode output⟩)
  | _ => .error (.wrongArity kind.name 2 arguments.length)

def parse (line : String) : Except CommandError Command :=
  match Text.words line.toList with
  | [] => .error .empty
  | name :: arguments =>
    if name = ['m', 'a', 'p'] then ofArguments .map arguments
    else if name = ['r', 'e', 'd', 'u', 'c', 'e'] then ofArguments .reduce arguments
    else if name = ['d', 'o', 'n', 'e'] then
      if arguments.isEmpty then .ok .done
      else .error (.wrongArity "done" 0 arguments.length)
    else .error (.unknown line)

end Command

end MapReduce
