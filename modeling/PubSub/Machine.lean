import PubSub.Call

/-!
# Threads that take turns

A machine runs some callers, the tasks that clients start and the workers of all executors. In one
turn one of them takes one atomic step, or time passes; the order of turns is free. `next?` is one
such order: it stays with the first that can move, and lets time pass only when nobody can.
-/
namespace PubSub

variable {μ α : Type}

structure Machine (μ α : Type) where
  world : World μ
  callers : List (Proc μ α)
  /-- What the running tasks still have to do. -/
  tasks : Keyed Nat (Proc μ (Option Payload))
  /-- What the busy workers still have to do. -/
  workers : Keyed (ExecutorId × Nat) (Proc μ Unit)

inductive Turn where
  | caller (i : Nat)
  | task (serial : Nat)
  | worker (e : ExecutorId) (i : Nat)
  | pass (milliseconds : Nat)
deriving DecidableEq

namespace Machine

/-- The world after the first step of a program and the rest of the program, if the step is
possible now. -/
def advance (w : World μ) : Proc μ α → Option (Proc μ α × World μ)
  | .step s next => (s.run w).map fun (reply, w) => (next reply, w)
  | _ => none

/-- A worker without work takes the oldest job, or leaves. -/
def begin (β : Behaviour μ) (depth : Nat) (m : Machine μ α) (e : ExecutorId) (i : Nat) :
    Option (Machine μ α) :=
  match (m.world.pool e).take i with
  | some (job, p) =>
    let client := β.client (β.perform depth (.worker e i))
    some { m with world := m.world.setPool e p
                  workers := m.workers.insert (e, i) (serve client e i job) }
  | none => ((m.world.pool e).leave i).map fun p => { m with world := m.world.setPool e p }

/-- A task that is ready takes up its work. -/
def beginTask (β : Behaviour μ) (depth : Nat) (m : Machine μ α) (serial : Nat) :
    Option (Machine μ α) :=
  match m.world.tasks.get? serial with
  | some (.ready body) =>
    some { m with world := m.world.setTask serial .running
                  tasks := m.tasks.insert serial (β.run depth (.started serial) (β.work body)) }
  | _ => none

/-- The machine after a turn, if the thread whose turn it is can move. Time can always pass. -/
def turn (β : Behaviour μ) (depth : Nat) (m : Machine μ α) : Turn → Option (Machine μ α)
  | .caller i =>
    match m.callers[i]? with
    | none => none
    | some program => (advance m.world program).map fun (program, world) =>
      { m with world, callers := m.callers.set i program }
  | .task serial =>
    match m.tasks.get? serial with
    | none => m.beginTask β depth serial
    | some (.done _) =>
      some { m with world := m.world.setTask serial .ended, tasks := m.tasks.erase serial }
    | some program => (advance m.world program).map fun (program, world) =>
      { m with world, tasks := m.tasks.insert serial program }
  | .worker e i =>
    match m.workers.get? (e, i) with
    | none => m.begin β depth e i
    | some (.done ()) => ((m.world.pool e).finish i).map fun p =>
      { m with world := m.world.setPool e p, workers := m.workers.erase (e, i) }
    | some program => (advance m.world program).map fun (program, world) =>
      { m with world, workers := m.workers.insert (e, i) program }
  | .pass milliseconds =>
    some { m with world := { m.world with time := m.world.time + milliseconds } }

def canMove (w : World μ) : Proc μ α → Bool
  | .step s _ => s.possible w
  | _ => false

/-- How long a program still waits before it goes on without what it waits for. -/
def patience? (w : World μ) : Proc μ α → Option Nat
  | .step (.await _ deadline) _ => some (deadline - w.time)
  | _ => none

/-- The workers of all executors. -/
def allWorkers (w : World μ) : List (ExecutorId × Nat) :=
  w.executors.zipIdx.flatMap fun (executor, e) =>
    match executor.pool? with
    | none => []
    | some p => (List.range p.workers.length).map fun i => (e, i)

def taskCanMove (m : Machine μ α) (serial : Nat) : Task → Bool
  | .ready _ => true
  | .running =>
    match m.tasks.get? serial with
    | none => false
    | some (.done _) => true
    | some program => canMove m.world program
  | .ended => false

def workerCanMove (m : Machine μ α) (e : ExecutorId) (i : Nat) : Bool :=
  match m.workers.get? (e, i) with
  | none => ((m.world.pool e).take i).isSome || ((m.world.pool e).leave i).isSome
  | some (.done ()) => true
  | some program => canMove m.world program

/-- The first that can move: a caller, else a task, else a worker. -/
def first? (m : Machine μ α) : Option Turn :=
  match m.callers.findIdx? (canMove m.world) with
  | some i => some (.caller i)
  | none =>
    match m.world.tasks.pairs.find? fun (serial, task) => m.taskCanMove serial task with
    | some (serial, _) => some (.task serial)
    | none => ((allWorkers m.world).find? fun (e, i) => m.workerCanMove e i).map
        fun (e, i) => .worker e i

/-- The time after which the first of those that wait goes on. -/
def passing? (m : Machine μ α) : Option Turn :=
  (m.callers.filterMap (patience? m.world) ++ m.tasks.values.filterMap (patience? m.world)
    ++ m.workers.values.filterMap (patience? m.world)).min?.map .pass

def next? (m : Machine μ α) : Option Turn := m.first?.or m.passing?

/-- Takes turns until nobody can move, at most `turns` times. -/
def settle (β : Behaviour μ) (depth : Nat) : (turns : Nat) → Machine μ α → Machine μ α
  | 0, m => m
  | turns + 1, m =>
    match m.next? with
    | none => m
    | some t =>
      match m.turn β depth t with
      | none => m
      | some m => settle β depth turns m

/-- What the callers that have ended answer. -/
def results (m : Machine μ α) : List (Option α) :=
  m.callers.map fun
    | .done a => some a
    | _ => none

end Machine

end PubSub
