/-!
Reading and bounding unsigned 64-bit numbers.
-/
namespace MapReduce

def countLimit : Nat := 0x10000000000000000

inductive NumberError where
  | empty
  | invalidDigit
  | tooLarge
  deriving DecidableEq, Repr

def NumberError.message : NumberError → String
  | .empty => "cannot parse integer from empty string"
  | .invalidDigit => "invalid digit found in string"
  | .tooLarge => "number too large to fit in target type"

namespace Text

/-- Reads decimal digits on top of `value`; the first character at fault decides the error. -/
def readDigits (value : Nat) : List Char → Except NumberError Nat
  | [] => .ok value
  | c :: rest =>
    if c.isDigit then
      let next := value * 10 + (c.toNat - 0x30)
      if next < countLimit then readDigits next rest else .error .tooLarge
    else .error .invalidDigit

/-- A decimal number below `countLimit`, with an optional plus sign. -/
def readCount : List Char → Except NumberError Nat
  | [] => .error .empty
  | ['+'] => .error .invalidDigit
  | '+' :: digits => readDigits 0 digits
  | digits => readDigits 0 digits

def showCount (n : Nat) : List Char :=
  Nat.toDigits 10 n

end Text

end MapReduce
