import MapReduce.Fault
import MapReduce.Record
import MapReduce.Text.Number

/-!
Workloads: what a job computes, as a map function and a reduce function.
-/
namespace MapReduce

inductive WorkloadError where
  | notUtf8 (fault : Utf8.Fault)
  | notCount (e : NumberError)
  /-- A line lacks the two numbers of an edge. -/
  | notEdge
  | stated (text : String)
  | fault (fault : Fault)
  deriving DecidableEq, Repr

def WorkloadError.message : WorkloadError → String
  | .notUtf8 e => e.message
  | .notCount e => e.message
  | .notEdge => "Invalid input file format"
  | .stated text => text
  | .fault e => e.message

/-- The records that an input maps to. The call may fail as a whole, and each record by itself. -/
abbrev MapFunction := (input : Record) → (aux : Bytes) →
  Except WorkloadError (List (Except WorkloadError Record))

abbrev ReduceFunction := (key : Bytes) → (values : List Bytes) → (aux : Bytes) →
  Except WorkloadError Bytes

structure Workload where
  map : MapFunction
  reduce : ReduceFunction

namespace Workload

def decodeText (bs : Bytes) : Except WorkloadError (List Char) :=
  (Utf8.decode bs).mapError .notUtf8

def decodeCount (bs : Bytes) : Except WorkloadError Nat := do
  (Text.readCount (← decodeText bs)).mapError .notCount

/-- A sum that must stay below `countLimit`. -/
def addCounts (a b : Nat) : Except WorkloadError Nat :=
  if a + b < countLimit then .ok (a + b) else .error (.fault .additionOverflow)

/-- The sum of counts, from left to right. -/
def sumCounts (total : Nat) : List Bytes → Except WorkloadError Nat
  | [] => .ok total
  | value :: rest => do
    let count ← decodeCount value
    sumCounts (← addCounts total count) rest

def encodeCount (n : Nat) : Bytes :=
  Utf8.encode (Text.showCount n)

/-- The result line of a key and its count. -/
def countLine (key : Bytes) (n : Nat) : Bytes :=
  key ++ Bytes.space :: encodeCount n ++ [Bytes.newline]

end Workload

end MapReduce
