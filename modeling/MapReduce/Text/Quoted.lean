import MapReduce.Path
import MapReduce.Text.Hidden
import MapReduce.Text.Utf8

/-!
Quoted texts for messages: what a reader could not see or tell apart is written as an escape, so
that a quoted text is one line.
-/
namespace MapReduce.Text

def letterEscape : Char → Option Char
  | '\x00' => some '0'
  | '\t' => some 't'
  | '\n' => some 'n'
  | '\r' => some 'r'
  | '"' => some '"'
  | '\\' => some '\\'
  | _ => none

def needsCode (c : Char) : Bool :=
  let n := c.toNat
  n < 0x20 || (0x7F ≤ n && isHidden c)

def escape (c : Char) : List Char :=
  match letterEscape c with
  | some letter => ['\\', letter]
  | none =>
    if needsCode c then ['\\', 'u', '\x7b'] ++ Nat.toDigits 16 c.toNat ++ ['\x7d'] else [c]

def quote (cs : List Char) : String :=
  String.ofList ('"' :: cs.flatMap escape ++ ['"'])

def hexDigit (n : Nat) : Char :=
  if n < 10 then Char.ofNat (0x30 + n) else Char.ofNat (0x41 + (n - 10))

def escapeByte (b : UInt8) : List Char :=
  ['\\', 'x', hexDigit (b.toNat / 16), hexDigit (b.toNat % 16)]

def escapePiece : Utf8.Piece → List Char
  | .char c => escape c
  | .malformed run | .truncated run => run.flatMap escapeByte

def quotePath (path : Path) : String :=
  String.ofList ('"' :: (Utf8.pieces path).flatMap escapePiece ++ ['"'])

end MapReduce.Text
