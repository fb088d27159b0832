import MapReduce.Bytes

/-!
UTF-8. `pieces` cuts a byte string into characters and maximal malformed runs; strict and lossy
decoding are two readings of the same pieces.
-/
namespace MapReduce.Utf8

def encodeChar (c : Char) : Bytes :=
  let n := c.toNat
  if n < 0x80 then [UInt8.ofNat n]
  else if n < 0x800 then [UInt8.ofNat (0xC0 + n / 0x40), UInt8.ofNat (0x80 + n % 0x40)]
  else if n < 0x10000 then
    [UInt8.ofNat (0xE0 + n / 0x1000), UInt8.ofNat (0x80 + n / 0x40 % 0x40),
      UInt8.ofNat (0x80 + n % 0x40)]
  else
    [UInt8.ofNat (0xF0 + n / 0x40000), UInt8.ofNat (0x80 + n / 0x1000 % 0x40),
      UInt8.ofNat (0x80 + n / 0x40 % 0x40), UInt8.ofNat (0x80 + n % 0x40)]

def encode (cs : List Char) : Bytes :=
  cs.flatMap encodeChar

/-- A character, a run that begins no character, or a character that the end cuts off. -/
inductive Piece where
  | char (c : Char)
  | malformed (run : Bytes)
  | truncated (run : Bytes)
  deriving DecidableEq, Repr

structure Partial where
  /-- The bytes read, the last one first. -/
  read : Bytes
  value : Nat
  /-- How many bytes after the next one complete the character. -/
  after : Nat
  low : Nat
  high : Nat
  deriving DecidableEq, Repr

/-- The character that `b` begins, with the range its second byte must fall in. -/
def Partial.begin (b : UInt8) : Option Partial :=
  let n := b.toNat
  if n < 0xC2 then none
  else if n < 0xE0 then some ⟨[b], n - 0xC0, 0, 0x80, 0xBF⟩
  else if n = 0xE0 then some ⟨[b], 0, 1, 0xA0, 0xBF⟩
  else if n = 0xED then some ⟨[b], 0xD, 1, 0x80, 0x9F⟩
  else if n < 0xF0 then some ⟨[b], n - 0xE0, 1, 0x80, 0xBF⟩
  else if n = 0xF0 then some ⟨[b], 0, 2, 0x90, 0xBF⟩
  else if n < 0xF4 then some ⟨[b], n - 0xF0, 2, 0x80, 0xBF⟩
  else if n = 0xF4 then some ⟨[b], 4, 2, 0x80, 0x8F⟩
  else none

def Partial.accepts (p : Partial) (b : UInt8) : Bool :=
  p.low ≤ b.toNat && b.toNat ≤ p.high

def Partial.valueWith (p : Partial) (b : UInt8) : Nat :=
  p.value * 0x40 + (b.toNat - 0x80)

/-- Cuts the rest of a string, given the unfinished character and the pieces so far, last first. -/
def scan : Option Partial → List Piece → Bytes → List Piece
  | none, done, [] => done.reverse
  | some p, done, [] => (.truncated p.read.reverse :: done).reverse
  | none, done, b :: rest =>
    if b.toNat < 0x80 then scan none (.char (Char.ofNat b.toNat) :: done) rest
    else match Partial.begin b with
      | some p => scan (some p) done rest
      | none => scan none (.malformed [b] :: done) rest
  | some p, done, b :: rest =>
    if p.accepts b then
      if p.after = 0 then scan none (.char (Char.ofNat (p.valueWith b)) :: done) rest
      else scan (some ⟨b :: p.read, p.valueWith b, p.after - 1, 0x80, 0xBF⟩) done rest
    else
      let done := .malformed p.read.reverse :: done
      if b.toNat < 0x80 then scan none (.char (Char.ofNat b.toNat) :: done) rest
      else match Partial.begin b with
        | some q => scan (some q) done rest
        | none => scan none (.malformed [b] :: done) rest

def pieces (bs : Bytes) : List Piece :=
  scan none [] bs

/-- Where a string stops being UTF-8, and the length of the malformed run unless the end of the
string cuts a character off. -/
structure Fault where
  index : Nat
  length : Option Nat
  deriving DecidableEq, Repr

def Fault.message (fault : Fault) : String :=
  match fault.length with
  | some n => s!"invalid utf-8 sequence of {n} bytes from index {fault.index}"
  | none => s!"incomplete utf-8 byte sequence from index {fault.index}"

/-- Reads pieces as characters, given the bytes passed and the characters so far, last first. -/
def readPieces (index : Nat) (read : List Char) : List Piece → Except Fault (List Char)
  | [] => .ok read.reverse
  | .char c :: rest => readPieces (index + c.utf8Size) (c :: read) rest
  | .malformed run :: _ => .error ⟨index, some run.length⟩
  | .truncated _ :: _ => .error ⟨index, none⟩

def decode (bs : Bytes) : Except Fault (List Char) :=
  readPieces 0 [] (pieces bs)

def Piece.shown : Piece → Char
  | .char c => c
  | .malformed _ | .truncated _ => '\uFFFD'

def decodeLossy (bs : Bytes) : List Char :=
  (pieces bs).map Piece.shown

end MapReduce.Utf8

namespace MapReduce

def Bytes.ofString (s : String) : Bytes :=
  Utf8.encode s.toList

/-- The text that the bytes stand for, malformed runs replaced. -/
def Bytes.show (bs : Bytes) : String :=
  String.ofList (Utf8.decodeLossy bs)

end MapReduce
