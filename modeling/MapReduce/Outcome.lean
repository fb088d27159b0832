/-!
How a call ends that may wait for somebody else.
-/
namespace MapReduce

inductive Outcome (ε α : Type) where
  | ok (value : α)
  | failed (e : ε)
  /-- Somebody never answered, and the call was given up. -/
  | abandoned
  deriving DecidableEq, Repr

end MapReduce
