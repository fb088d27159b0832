import MapReduce.Path
import MapReduce.Text.Utf8

/-!
Reading command lines: options by letter or by name, positional arguments, and after `--` the
arguments that are passed on.

An argument is handed to the settings only when it is complete, which for an option with its value
in the next argument, and for a positional one, is when something else follows.
-/
namespace MapReduce.CommandLine

inductive ArgumentError where
  | unknownArgument
  | invalidValue
  | valueValidation
  | argumentConflict
  | missingRequired
  | invalidUtf8
  | tooManyValues
  | displayHelp
  | displayVersion
  deriving DecidableEq, Repr

structure OptionSpec where
  name : String
  letter : Option Char
  deriving DecidableEq, Repr

/-- What the arguments of a program are, and how they change its settings `σ`. -/
structure Grammar (σ : Type) where
  options : List OptionSpec
  /-- How many positional arguments come before `--`. -/
  positionals : Nat
  initial : σ
  setOption : OptionSpec → Bytes → σ → Except ArgumentError σ
  setPositional : Nat → Bytes → σ → Except ArgumentError σ
  setTrailing : List Bytes → σ → Except ArgumentError σ

inductive Pending where
  | none
  | option (spec : OptionSpec)
  | value (spec : OptionSpec) (value : Bytes)
  | positional (index : Nat) (value : Bytes)

structure Progress (σ : Type) where
  settings : σ
  pending : Pending
  given : List OptionSpec
  nextPositional : Nat

namespace Grammar

variable {σ : Type} (g : Grammar σ)

def giveOption (spec : OptionSpec) (value : Bytes) (p : Progress σ) :
    Except ArgumentError (Progress σ) :=
  if spec ∈ p.given then .error .argumentConflict
  else do
    let settings ← g.setOption spec value p.settings
    return { p with settings, given := spec :: p.given, pending := .none }

def settle (p : Progress σ) : Except ArgumentError (Progress σ) :=
  match p.pending with
  | .none => .ok p
  | .option _ => .error .invalidValue
  | .value spec value => g.giveOption spec value p
  | .positional index value => do
    return { p with settings := ← g.setPositional index value p.settings, pending := .none }

/-- An option was named: its value is attached or in the next argument. -/
def nameOption (spec : OptionSpec) (attached : Option Bytes) (p : Progress σ) :
    Except ArgumentError (Progress σ) := do
  let p ← g.settle p
  match attached with
  | some value => g.giveOption spec value p
  | none => return { p with pending := .option spec }

def stopWith (e : ArgumentError) (p : Progress σ) : Except ArgumentError (Progress σ) := do
  let _ ← g.settle p
  .error e

def equalsSign : UInt8 := 0x3D

/-- An option by name: `--name` or `--name=value`. -/
def readLong (rest : Bytes) (p : Progress σ) : Except ArgumentError (Progress σ) :=
  let name := rest.takeWhile (· != equalsSign)
  let attached := match rest.dropWhile (· != equalsSign) with
    | [] => none
    | _ :: value => some value
  match g.options.find? fun spec => Bytes.ofString spec.name == name with
  | some spec => g.nameOption spec attached p
  | none =>
    let flag? : Option ArgumentError :=
      if name = Bytes.ofString "help" then some .displayHelp
      else if name = Bytes.ofString "version" then some .displayVersion
      else none
    match flag? with
    | none => .error .unknownArgument
    | some flag => if attached.isSome then .error .tooManyValues else g.stopWith flag p

/-- An option by letter: `-x`, `-xvalue` or `-x=value`, or the letters for help and version. -/
def readShort (rest : Bytes) (p : Progress σ) : Except ArgumentError (Progress σ) :=
  match Utf8.pieces rest with
  | .char c :: _ =>
    match g.options.find? fun spec => spec.letter == some c with
    | some spec =>
      let attached := match rest.drop c.utf8Size with
        | [] => none
        | b :: value => some (if b = equalsSign then value else b :: value)
      g.nameOption spec attached p
    | none =>
      if c = 'h' then g.stopWith .displayHelp p
      else if c = 'V' then g.stopWith .displayVersion p
      else .error .unknownArgument
  | _ => .error .unknownArgument

/-- A word that is no option: the value of a pending option, or the next positional argument. -/
def readWord (word : Bytes) (p : Progress σ) : Except ArgumentError (Progress σ) :=
  match p.pending with
  | .option spec => .ok { p with pending := .value spec word }
  | _ =>
    if p.nextPositional < g.positionals then do
      let p ← g.settle p
      return { p with
        pending := .positional p.nextPositional word
        nextPositional := p.nextPositional + 1 }
    else .error .unknownArgument

def readTrailing (words : List Bytes) (p : Progress σ) : Except ArgumentError (Progress σ) :=
  if words.isEmpty then g.settle p
  else do
    let p ← g.settle p
    return { p with settings := ← g.setTrailing words p.settings }

def readAll (p : Progress σ) : List Bytes → Except ArgumentError (Progress σ)
  | [] => g.settle p
  | [0x2D, 0x2D] :: rest => g.readTrailing rest p
  | (0x2D :: 0x2D :: name) :: rest => g.readLong name p >>= fun p => readAll p rest
  | (0x2D :: letter :: more) :: rest =>
    g.readShort (letter :: more) p >>= fun p => readAll p rest
  | word :: rest => g.readWord word p >>= fun p => readAll p rest

/-- Reads the arguments, of which every positional one before `--` is required. -/
def read (arguments : List Bytes) : Except ArgumentError σ := do
  let p ← g.readAll ⟨g.initial, .none, [], 0⟩ arguments
  if p.nextPositional < g.positionals then .error .missingRequired else return p.settings

end Grammar

def textValue (value : Bytes) : Except ArgumentError (List Char) :=
  (Utf8.decode value).mapError fun _ => .invalidUtf8

def pathValue (value : Bytes) : Except ArgumentError Path :=
  if value.isEmpty then .error .invalidValue else .ok value

end MapReduce.CommandLine
