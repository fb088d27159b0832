/-!
The lines that a worker writes back: the outcome of a task, or a remark that settles nothing.
-/
namespace MapReduce

inductive Status where
  | ok
  | error (message : String)
  | diagnostic (line : String)
  deriving DecidableEq, Repr

namespace Status

/-- A message on one line: each line break becomes a space. -/
def oneLine (message : String) : String :=
  String.ofList (message.toList.map fun c => if c = '\r' ∨ c = '\n' then ' ' else c)

def failure (message : String) : Status :=
  .error (oneLine message)

def line : Status → String
  | .ok => "ok"
  | .error message => "error: " ++ message
  | .diagnostic line => line

/-- What follows the word, less one colon and then one space. -/
def errorText (rest : List Char) : List Char :=
  let rest := if rest.head? = some ':' then rest.tail else rest
  if rest.head? = some ' ' then rest.tail else rest

/-- Lines that start with `ok` or `error` are outcomes. -/
def parse (line : String) : Status :=
  match line.toList with
  | 'o' :: 'k' :: _ => .ok
  | 'e' :: 'r' :: 'r' :: 'o' :: 'r' :: rest => .error (String.ofList (errorText rest))
  | _ => .diagnostic line

end Status

end MapReduce
