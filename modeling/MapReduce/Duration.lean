import MapReduce.Text.Number

/-!
Spans of time in nanoseconds.
-/
namespace MapReduce

/-- A span of time, in nanoseconds. -/
abbrev Duration := Nat

namespace Duration

def ofMillis (ms : Nat) : Duration := ms * 1000000

/-- The whole milliseconds in a span, or the greatest count if there are more. -/
def toMillis (d : Duration) : Nat := min (d / 1000000) (countLimit - 1)

def ofSeconds (s : Nat) : Duration := s * 1000000000

/-- The digits of a fraction `part / 10 ^ places`, without the zeros at their end. -/
def fraction (places part : Nat) : String :=
  let digits := Nat.toDigits 10 part
  let padded := List.replicate (places - digits.length) '0' ++ digits
  let kept := (padded.reverse.dropWhile (· == '0')).reverse
  if kept.isEmpty then "" else "." ++ String.ofList kept

/-- The span in the largest unit of which it holds at least one, exact to the nanosecond. -/
def text (d : Duration) : String :=
  if d < 1000 then s!"{d}ns"
  else if d < 1000000 then s!"{d / 1000}{fraction 3 (d % 1000)}µs"
  else if d < 1000000000 then s!"{d / 1000000}{fraction 6 (d % 1000000)}ms"
  else s!"{d / 1000000000}{fraction 9 (d % 1000000000)}s"

end Duration

end MapReduce
