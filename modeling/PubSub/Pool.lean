/-!
# Worker pools

Submitters put jobs into a queue from which a fixed set of workers takes them, first in, first out.
A submitter first borrows the pool's sender; the queue is open as long as the pool or a submitter
has one. Closing the pool takes its own sender away. A worker leaves when it finds the queue empty
and no longer open. Once all workers have left, nothing can be sent any more. The functions below
are the atomic steps; one without a result cannot happen in that state.
-/
namespace PubSub

inductive Worker (ι : Type) where
  | idle
  | busy (job : ι)
  | left
deriving DecidableEq

structure Pool (ι : Type) where
  /-- How many jobs may wait in the queue, if there is a limit. -/
  bound : Option Nat
  /-- The pool has not been shut down. -/
  accepting : Bool
  /-- Submitters that have a sender of their own. -/
  borrowed : Nat
  queue : List ι
  workers : List (Worker ι)
  /-- Workers that nobody has undertaken to wait for. -/
  unclaimed : List Nat

namespace Pool

variable {ι : Type}

/-- A pool with `threads` workers. -/
def start (threads : Nat) (bound : Option Nat) : Pool ι :=
  ⟨bound, true, 0, [], List.replicate threads .idle, List.range threads⟩

/-- Some sender is left, so jobs may still come. -/
def isOpen (p : Pool ι) : Bool := p.accepting || 0 < p.borrowed

def hasRoom (p : Pool ι) : Bool :=
  match p.bound with
  | none => true
  | some bound => p.queue.length < bound

def borrow (p : Pool ι) : Option (Pool ι) :=
  if p.accepting then some { p with borrowed := p.borrowed + 1 } else none

/-- No worker is left to take a job. -/
def deserted (p : Pool ι) : Bool :=
  p.workers.all fun worker =>
    match worker with
    | .left => true
    | _ => false

/-- Puts a job into the queue, or answers that nobody would take it. Waits while the queue is
full. -/
def send (p : Pool ι) (job : ι) : Option (Bool × Pool ι) :=
  if p.deserted then some (false, p)
  else if p.hasRoom then some (true, { p with queue := p.queue ++ [job] })
  else none

def giveBack (p : Pool ι) : Pool ι := { p with borrowed := p.borrowed - 1 }

def close (p : Pool ι) : Pool ι := { p with accepting := false }

/-- The workers that a shutdown has to wait for. Only the first shutdown gets any. -/
def claim (p : Pool ι) : List Nat × Pool ι := (p.unclaimed, { p with unclaimed := [] })

def hasLeft (p : Pool ι) (worker : Nat) : Bool :=
  match p.workers[worker]? with
  | some .left => true
  | some _ => false
  | none => true

/-- An idle worker takes the oldest job. -/
def take (p : Pool ι) (worker : Nat) : Option (ι × Pool ι) :=
  match p.workers[worker]?, p.queue with
  | some .idle, job :: rest =>
    some (job, { p with queue := rest, workers := p.workers.set worker (.busy job) })
  | _, _ => none

/-- A busy worker is done with its job, however the job ended. -/
def finish (p : Pool ι) (worker : Nat) : Option (Pool ι) :=
  match p.workers[worker]? with
  | some (.busy _) => some { p with workers := p.workers.set worker .idle }
  | _ => none

def leave (p : Pool ι) (worker : Nat) : Option (Pool ι) :=
  match p.workers[worker]?, p.queue with
  | some .idle, [] =>
    if p.isOpen then none else some { p with workers := p.workers.set worker .left }
  | _, _ => none

/-- No job waits, and no worker has one except those that are not counted. -/
def isAtRest (p : Pool ι) (counted : Nat → Bool) : Bool :=
  p.queue.isEmpty && p.workers.zipIdx.all fun (worker, i) =>
    match worker with
    | .busy _ => !counted i
    | _ => true

end Pool

end PubSub
