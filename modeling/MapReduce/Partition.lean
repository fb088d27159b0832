import MapReduce.Bytes
import MapReduce.Fault

/-!
Which reducer owns a key.
-/
namespace MapReduce

/-- The FNV-1a hash from a given starting value: each byte is mixed in, then spread by the prime. -/
def fnv1a (start : UInt64) (bs : Bytes) : UInt64 :=
  bs.foldl (fun h b => (h ^^^ b.toUInt64) * 0x100000001b3) start

def keyHash (key : Bytes) : Nat :=
  (fnv1a 0 key &&& 0x7fffffff).toNat

def partitionOf (hash : Bytes → Nat) (key : Bytes) (n : Nat) : Except Fault Nat :=
  if n = 0 then .error .remainderByZero else .ok (hash key % n)

end MapReduce
