/-! # Workers that share a list of jobs

Workers fetch the number of the next job from a shared counter, do the job and store its
result in the slot of that number, until the counter has passed the last job. The order
in which they take their steps is a schedule, and any schedule under which all of them
stop leaves the same results.
-/
namespace Underwriting

inductive Worker where
  /-- About to fetch a number. -/
  | ready
  /-- Doing the job of this number. -/
  | busy (job : Nat)
  | stopped
  deriving DecidableEq, Repr

structure WorkerPool (α : Type) where
  next : Nat
  workers : List Worker
  slots : List α

namespace WorkerPool

variable {α : Type}

/-- Workers before their first step, and slots that hold nothing yet. -/
def start (workers jobs : Nat) (blank : α) : WorkerPool α :=
  ⟨0, List.replicate workers .ready, List.replicate jobs blank⟩

/-- One step of a worker. Fetching a number and storing a result are single steps. -/
def step (job : Nat → α) (pool : WorkerPool α) (worker : Nat) : WorkerPool α :=
  match pool.workers[worker]? with
  | some .ready =>
    let state := if pool.next < pool.slots.length then .busy pool.next else .stopped
    { pool with next := pool.next + 1, workers := pool.workers.set worker state }
  | some (.busy i) =>
    { pool with workers := pool.workers.set worker .ready, slots := pool.slots.set i (job i) }
  | _ => pool

def run (job : Nat → α) (pool : WorkerPool α) (schedule : List Nat) : WorkerPool α :=
  schedule.foldl (step job) pool

/-- All workers in turn, often enough for each of them to do all jobs. -/
def inTurn (workers jobs : Nat) : List Nat :=
  (List.replicate (2 * jobs + 1) (List.range workers)).flatten

def results (job : Nat → α) (workers jobs : Nat) (blank : α) : List α :=
  ((start workers jobs blank).run job (inTurn workers jobs)).slots

end WorkerPool
end Underwriting
