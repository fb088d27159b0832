import MapReduce.Pool

/-!
# Calls put down

A pool calls its workers one at a time, so what it does to them is a list of calls. A watched worker
behaves like the worker inside it and puts down every call that reaches it, with the position of the
worker in its pool and the way the call ended. Nothing is assumed about the worker inside: each of
its calls may succeed, fail with any error or never return.
-/

namespace MapReduce

/-- A call that a pool makes to one of its workers. -/
inductive WorkerCall where
  | dispatch (task : Task)
  | awaitResult
  | terminate
  | kill
  deriving DecidableEq, Repr

structure CallEntry where
  position : Nat
  call : WorkerCall
  reply : Reply
  deriving DecidableEq, Repr

def CallEntry.step (e : CallEntry) : Nat × WorkerCall :=
  (e.position, e.call)

/-- A worker at a position of its pool whose calls are put down. -/
structure Watched (ω : Type) where
  position : Nat
  worker : ω

/-- Workers that keep their numbers. -/
structure KeepsIndex (ω σ : Type) [Worker ω σ] : Prop where
  dispatch : ∀ task (w : ω) (s : σ), Worker.index (Worker.dispatch task w s).2.1 = Worker.index w
  awaitResult : ∀ bounded (w : ω) (s : σ),
    Worker.index (Worker.awaitResult bounded w s).2.1 = Worker.index w

namespace Watched

variable {ω σ : Type}

def record (w : Watched ω) (call : WorkerCall) (log : List CallEntry) (ended : Reply × ω × σ) :
    Reply × Watched ω × (σ × List CallEntry) :=
  (ended.1, { w with worker := ended.2.1 }, (ended.2.2, log ++ [⟨w.position, call, ended.1⟩]))

instance [Worker ω σ] : Worker (Watched ω) (σ × List CallEntry) where
  index w := w.position
  state w := Worker.state w.worker
  dispatch task w s := w.record (.dispatch task) s.2 (Worker.dispatch task w.worker s.1)
  awaitResult bounded w s := w.record .awaitResult s.2 (Worker.awaitResult bounded w.worker s.1)
  terminate w s := w.record .terminate s.2 (Worker.terminate w.worker s.1)
  kill w s := w.record .kill s.2 (Worker.kill w.worker s.1)

/-- A start that gives watched workers. -/
def start (start : Nat → σ → Except WorkerError ω × σ) (index : Nat) (s : σ × List CallEntry) :
    Except WorkerError (Watched ω) × (σ × List CallEntry) :=
  ((start index s.1).1.map fun w => ⟨index, w⟩, ((start index s.1).2, s.2))

def line (k : Nat) (workers : List ω) : List (Watched ω) :=
  (workers.zipIdx k).map fun entry => ⟨entry.2, entry.1⟩

@[simp]
theorem line_nil (k : Nat) : line k ([] : List ω) = [] := rfl

@[simp]
theorem line_cons (k : Nat) (w : ω) (workers : List ω) :
    line k (w :: workers) = ⟨k, w⟩ :: line (k + 1) workers := by
  simp [line]

@[simp]
theorem length_line (k : Nat) (workers : List ω) : (line k workers).length = workers.length := by
  simp [line]

end Watched

def Pool.watched {ω : Type} (p : Pool ω) : Pool (Watched ω) :=
  { p with workers := Watched.line 0 p.workers }

end MapReduce
