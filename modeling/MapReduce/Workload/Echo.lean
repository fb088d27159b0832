import MapReduce.Text.Blank
import MapReduce.Workload

/-!
A workload for trying out the machinery: its input says which records to emit and where to fail.
-/
namespace MapReduce.Echo

def bang : UInt8 := 0x21
def equals : UInt8 := 0x3D

/-- A field of a record, where three names stand for what the map function was given. -/
def expand (input : Record) (aux field : Bytes) : Bytes :=
  if field = Bytes.ofString "$key" then input.key
  else if field = Bytes.ofString "$aux" then aux
  else if field = Bytes.ofString "$nl" then Bytes.ofString "a\nb"
  else field

/-- A line is a record cut at its first equals sign, or after a bang the text of a failure. -/
def emit (input : Record) (aux line : Bytes) : Except WorkloadError Record :=
  if line.head? = some bang then .error (.stated s!"inner {Bytes.show line.tail}")
  else
    let key := line.takeWhile (· != equals)
    let value := (line.dropWhile (· != equals)).tail
    .ok ⟨expand input aux key, expand input aux value⟩

def map : MapFunction := fun input aux =>
  match input.value with
  | 0x21 :: 0x21 :: rest =>
    .error (.stated s!"outer {String.ofList (Text.trimEnd (Utf8.decodeLossy rest))}")
  | value =>
    .ok (((splitWhere (· == Bytes.newline) value).filter (!·.isEmpty)).map (emit input aux))

/-- The key, each value in brackets, and the auxiliary argument after a slash. -/
def reduce : ReduceFunction := fun key values aux =>
  if key.head? = some bang then .error (.stated s!"reduce {Bytes.show key.tail}")
  else .ok (key ++ values.flatMap (fun v => 0x5B :: v ++ [0x5D]) ++ Bytes.slash :: aux ++ [Bytes.newline])

def workload : Workload := ⟨map, reduce⟩

end MapReduce.Echo
