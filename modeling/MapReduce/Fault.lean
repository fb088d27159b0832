/-!
Faults: arithmetic that has no answer, or a workload that panics. A fault ends the computation it
occurs in.
-/
namespace MapReduce

inductive Fault where
  | additionOverflow
  | remainderByZero
  | zeroPeriod
  | panic (message : String)
  deriving DecidableEq, Repr

def Fault.message : Fault → String
  | .additionOverflow => "attempt to add with overflow"
  | .remainderByZero => "attempt to calculate the remainder with a divisor of zero"
  | .zeroPeriod => "`period` must be non-zero."
  | .panic message => message

/-- A list of this length has a place with this index. -/
def checkIndex (length index : Nat) : Except Fault Unit :=
  if index < length then .ok ()
  else .error (.panic s!"index out of bounds: the len is {length} but the index is {index}")

/-- Why something ends early: with an error of its own, or in a fault. -/
inductive Abort (ε : Type) where
  | failed (e : ε)
  | fault (e : Fault)
  deriving DecidableEq, Repr

def Abort.map {ε δ : Type} (f : ε → δ) : Abort ε → Abort δ
  | .failed e => .failed (f e)
  | .fault e => .fault e

end MapReduce
