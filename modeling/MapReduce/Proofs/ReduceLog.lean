import MapReduce.TaskRun.Reduce

/-!
# Calls of the reduce function

The calls that a reduce task makes are seen through a reduce function that keeps a log. The task is
taken with a reduce function that may act on a state, as the log is one; what it does is the same
with the log and without.
-/

namespace MapReduce

structure ReduceCall where
  key : Bytes
  values : List Bytes
  deriving DecidableEq, Repr

/-- A reduce function that may also act on a state. -/
abbrev ReduceAction (σ : Type) := (key : Bytes) → (values : List Bytes) → (aux : Bytes) → σ →
  Except WorkloadError Bytes × σ

/-- The reduce function, with its calls put down. -/
def ReduceFunction.logged (reduce : ReduceFunction) : ReduceAction (List ReduceCall) :=
  fun key values aux log => (reduce key values aux, log ++ [⟨key, values⟩])

namespace ReduceTask

section Acting

variable {σ : Type}

def emitWith (reduce : ReduceAction σ) (aux : Bytes) (writer : BlockWriter) (s : σ) (key : Bytes)
    (values : List Bytes) : (Except TaskError Unit × BlockWriter) × σ :=
  match reduce key values aux s with
  | (.error e, s) => ((.error (.workload e), writer), s)
  | (.ok result, s) =>
    match writer.write result with
    | (.error e, writer) => ((.error (.write e), writer), s)
    | (.ok _, writer) => ((.ok (), writer), s)

namespace Progress

def finishGroupWith (reduce : ReduceAction σ) (aux : Bytes) (p : Progress) (s : σ) :
    (Except TaskError Unit × Progress) × σ :=
  match p.group with
  | none => ((.ok (), p), s)
  | some group =>
    match emitWith reduce aux p.writer s group.key group.values with
    | ((.error cause, writer), s) => ((.error cause, ⟨none, p.keys, writer⟩), s)
    | ((.ok _, writer), s) => ((.ok (), ⟨none, p.keys + 1, writer⟩), s)

def addWith (reduce : ReduceAction σ) (aux : Bytes) (p : Progress) (r : Record) (s : σ) :
    (Except TaskError Unit × Progress) × σ :=
  match p.group with
  | none => ((.ok (), ⟨some (.start r), p.keys, p.writer⟩), s)
  | some group =>
    if group.key = r.key then ((.ok (), ⟨some (group.add r.value), p.keys, p.writer⟩), s)
    else
      match p.finishGroupWith reduce aux s with
      | ((.error cause, p), s) => ((.error cause, p), s)
      | ((.ok _, p), s) => ((.ok (), ⟨some (.start r), p.keys, p.writer⟩), s)

end Progress

def finishWith (reduce : ReduceAction σ) (aux : Bytes) (output : Path) (p : Progress) (s : σ) :
    (Except TaskError Nat × BlockWriter) × σ :=
  match p.finishGroupWith reduce aux s with
  | ((.error cause, p), s) => ((.error cause, p.writer), s)
  | ((.ok _, p), s) =>
    match p.writer.flush with
    | (.ok _, writer) => ((.ok p.keys, writer), s)
    | (.error e, writer) => ((.error (.file "write" output e), writer), s)

def emitFromWith (reduce : ReduceAction σ) (aux : Bytes) (input output : Path)
    (failure : Option IoError) (p : Progress) (s : σ) :
    List Bytes → (Except TaskError Nat × BlockWriter) × σ
  | [] =>
    match failure with
    | some e => ((.error (.sortInput input e), p.writer), s)
    | none => finishWith reduce aux output p s
  | line :: rest =>
    match Record.split line with
    | .error e => ((.error (.badRecord input e), p.writer), s)
    | .ok r =>
      match p.addWith reduce aux r s with
      | ((.error cause, p), s) => ((.error cause, p.writer), s)
      | ((.ok _, p), s) => emitFromWith reduce aux input output failure p s rest

def emitSortedWith (reduce : ReduceAction σ) (aux : Bytes) (input output : Path)
    (writer : BlockWriter) (sorted : Sorted) (s : σ) : (Except TaskError Nat × BlockWriter) × σ :=
  emitFromWith reduce aux input output sorted.failure ⟨none, 0, writer⟩ s sorted.lines

def runThroughWith (sorter : Sorter) (reduce : ReduceAction σ) (aux : Bytes) (input output : Path)
    (t : FileTree) (s : σ) : (Except TaskError Nat × FileTree) × σ :=
  match t.openFile input with
  | .error e => ((.error (.file "open" input e), t), s)
  | .ok source =>
    match t.checkScratch (directoryOf output) with
    | .error e => ((.error (.sortSetup e), t), s)
    | .ok _ =>
      match sorter.sort (t.read source >>= readLines) with
      | .error e => ((.error (.sortInput input e), t), s)
      | .ok sorted =>
        match t.create output with
        | .error e => ((.error (.file "create" output e), t), s)
        | .ok (place, t) =>
          let ((result, writer), s) :=
            emitSortedWith reduce aux input output (.ofSink (t.sinkAt place)) sorted s
          ((result, t.writeAt place 0 writer.closed.contents), s)

def runWith (reduce : ReduceAction σ) (aux : Bytes) (input output : Path) (t : FileTree) (s : σ) :
    (Except TaskError Nat × FileTree) × σ :=
  runThroughWith .inMemory reduce aux input output t s

end Acting

/-! ### The log does not show -/

variable {reduce : ReduceFunction} {aux : Bytes}

theorem fst_emitWith_logged (writer : BlockWriter) (log : List ReduceCall) (key : Bytes)
    (values : List Bytes) :
    (emitWith reduce.logged aux writer log key values).1 = emit reduce aux writer key values := by
  rw [emitWith, emit, ReduceFunction.logged]
  cases reduce key values aux with
  | error e => rfl
  | ok result =>
      dsimp only
      rcases writer.write result with ⟨_ | _, writer⟩ <;> rfl

theorem fst_finishGroupWith_logged (p : Progress) (log : List ReduceCall) :
    (p.finishGroupWith reduce.logged aux log).1 = p.finishGroup reduce aux := by
  rw [Progress.finishGroupWith, Progress.finishGroup]
  cases p.group with
  | none => rfl
  | some group =>
      dsimp only
      rw [← fst_emitWith_logged p.writer log]
      rcases emitWith reduce.logged aux p.writer log group.key group.values with
        ⟨⟨_ | _, writer⟩, log⟩ <;> rfl

theorem fst_addWith_logged (p : Progress) (r : Record) (log : List ReduceCall) :
    (p.addWith reduce.logged aux r log).1 = p.add reduce aux r := by
  rw [Progress.addWith, Progress.add]
  cases p.group with
  | none => rfl
  | some group =>
      dsimp only
      split
      · rfl
      · rw [← fst_finishGroupWith_logged p log]
        rcases p.finishGroupWith reduce.logged aux log with ⟨⟨_ | _, p⟩, log⟩ <;> rfl

theorem fst_finishWith_logged (output : Path) (p : Progress) (log : List ReduceCall) :
    (finishWith reduce.logged aux output p log).1 = finish reduce aux output p := by
  rw [finishWith, finish, ← fst_finishGroupWith_logged p log]
  rcases p.finishGroupWith reduce.logged aux log with ⟨⟨_ | _, p⟩, log⟩
  · rfl
  · dsimp only
    rcases p.writer.flush with ⟨_ | _, writer⟩ <;> rfl

theorem fst_emitFromWith_logged (input output : Path) (failure : Option IoError) (p : Progress)
    (log : List ReduceCall) (lines : List Bytes) :
    (emitFromWith reduce.logged aux input output failure p log lines).1
      = emitFrom reduce aux input output failure p lines := by
  induction lines generalizing p log with
  | nil =>
      cases failure with
      | some e => rfl
      | none => exact fst_finishWith_logged output p log
  | cons line lines ih =>
      rw [emitFromWith, emitFrom]
      cases Record.split line with
      | error e => rfl
      | ok r =>
          dsimp only
          rw [← fst_addWith_logged p r log]
          rcases p.addWith reduce.logged aux r log with ⟨⟨_ | _, p⟩, log⟩
          · rfl
          · exact ih p log

/-- With a log or without, a reduce task does the same. -/
theorem fst_runThroughWith_logged (sorter : Sorter) (reduce : ReduceFunction) (aux : Bytes)
    (input output : Path) (t : FileTree) (log : List ReduceCall) :
    (runThroughWith sorter reduce.logged aux input output t log).1
      = runThrough sorter reduce aux input output t := by
  rw [runThroughWith, runThrough]
  cases t.openFile input with
  | error e => rfl
  | ok source =>
      cases t.checkScratch (directoryOf output) with
      | error e => rfl
      | ok _ =>
          dsimp only
          cases sorter.sort (t.read source >>= readLines) with
          | error e => rfl
          | ok sorted =>
              dsimp only
              cases t.create output with
              | error e => rfl
              | ok created =>
                  dsimp only
                  rw [emitSorted, emitSortedWith, ← fst_emitFromWith_logged input output _ _ log]

theorem fst_runWith_logged (reduce : ReduceFunction) (aux : Bytes) (input output : Path)
    (t : FileTree) (log : List ReduceCall) :
    (runWith reduce.logged aux input output t log).1 = run reduce aux input output t :=
  fst_runThroughWith_logged .inMemory reduce aux input output t log

end ReduceTask

end MapReduce
