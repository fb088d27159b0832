import MapReduce.Text.Quoted

/-!
Records: a key and a value on one line, parted by a single space.
-/
namespace MapReduce

structure Record where
  key : Bytes
  value : Bytes
  deriving DecidableEq, Repr

inductive RecordError where
  | malformed (line : Bytes)
  | invalidKey (key : Bytes)
  | invalidValue (value : Bytes)
  deriving DecidableEq, Repr

def RecordError.message : RecordError → String
  | .malformed line =>
    s!"malformed record {Text.quote (Utf8.decodeLossy line)}: expected exactly `<key> <value>`"
  | .invalidKey key => s!"key {Text.quote (Utf8.decodeLossy key)} cannot be written as a record"
  | .invalidValue value =>
    s!"value {Text.quote (Utf8.decodeLossy value)} cannot be written as a record"

namespace Record

def isDelimiter (b : UInt8) : Bool :=
  b == Bytes.space || b == Bytes.newline

def split (line : Bytes) : Except RecordError Record :=
  match splitWhere (· == Bytes.space) line with
  | [key, value] =>
    if key.isEmpty || value.contains Bytes.newline then .error (.malformed line)
    else .ok ⟨key, value⟩
  | _ => .error (.malformed line)

def encode (r : Record) : Except RecordError Bytes :=
  if r.key.isEmpty || r.key.any isDelimiter then .error (.invalidKey r.key)
  else if r.value.any isDelimiter then .error (.invalidValue r.value)
  else .ok (r.key ++ Bytes.space :: r.value ++ [Bytes.newline])

/-- Adds the line of a record to a buffer. One that cannot be written leaves the buffer alone. -/
def append (buffer : Bytes) (r : Record) : Except RecordError Unit × Bytes :=
  match r.encode with
  | .ok line => (.ok (), buffer ++ line)
  | .error e => (.error e, buffer)

/-- Adds records one after the other. Gives what each step came to with the buffer behind it, and
the buffer in the end. -/
def appendAll (buffer : Bytes) : List Record → List (Except RecordError Unit × Bytes) × Bytes
  | [] => ([], buffer)
  | r :: rest =>
    let (result, buffer) := append buffer r
    let (steps, final) := appendAll buffer rest
    ((result, buffer) :: steps, final)

def text (r : Record) : String :=
  s!"{r.key.show} {r.value.show}"

end Record

end MapReduce
