import PubSub.Delivery
import PubSub.Pool

/-!
# Executors and their jobs

A job is one delivery to one handler, or work that a client submits by itself. An executor either
runs or drops every job that it is handed.
-/
namespace PubSub

inductive Job where
  /-- A delivery, with the name that its executor had when it was posted. -/
  | delivery (d : Delivery) (executor : String)
  | work (label : String) (body : CodeId)

/-- An executor that keeps its jobs until it is told to run or drop them. -/
structure Manual where
  name : String
  /-- How many more jobs it accepts, if there is a limit. -/
  room : Option Nat
  /-- What it answers to a job that it does not accept. -/
  rejection : BusError
  jobs : List Job

structure PoolSettings where
  /-- Zero stands for the number of processors. -/
  threads : Nat
  /-- Zero stands for no bound. -/
  capacity : Nat
  threadName : String

namespace PoolSettings

def standard : PoolSettings := ⟨0, 0, "typebus-worker"⟩

def threadsOn (c : PoolSettings) (processors : Nat) : Nat :=
  if c.threads = 0 then processors else c.threads

def bound (c : PoolSettings) : Option Nat := if c.capacity = 0 then none else some c.capacity

def outline (c : PoolSettings) : Text.Outline :=
  .record "WorkerPoolConfig"
    [("threads", .word (toString c.threads)), ("queue_capacity", .word (toString c.capacity)),
      ("thread_name", .quote c.threadName)] false

end PoolSettings

inductive Executor where
  | manual (m : Manual)
  | pool (threadName : String) (p : Pool Job)
  /-- A runtime that runs blocking work on one thread. -/
  | runtime (p : Pool Job)

namespace Executor

/-- Nobody's executor: it accepts no job. -/
def absent : Executor := .manual ⟨"", some 0, .rejected "" "", []⟩

instance : Inhabited Executor := ⟨absent⟩

/-- The workers of an executor that has its own threads. -/
def pool? : Executor → Option (Pool Job)
  | .manual _ => none
  | .pool _ p => some p
  | .runtime p => some p

def setPool : Executor → Pool Job → Executor
  | .manual m, _ => .manual m
  | .pool name _, p => .pool name p
  | .runtime _, p => .runtime p

/-- A manual executor stores a job while it has room. -/
def offer : Executor → Job → Bool × Executor
  | .manual m, job =>
    match m.room with
    | none => (true, .manual { m with jobs := m.jobs ++ [job] })
    | some 0 => (false, .manual m)
    | some (room + 1) => (true, .manual { m with jobs := m.jobs ++ [job], room := some room })
  | e, _ => (false, e)

def withRoom : Executor → Option Nat → Executor
  | .manual m, room => .manual { m with room }
  | e, _ => e

/-- Takes the job at a place, counted from the oldest. -/
def pick : Executor → Nat → Option Job × Executor
  | .manual m, place => (m.jobs[place]?, .manual { m with jobs := m.jobs.eraseIdx place })
  | e, _ => (none, e)

end Executor

inductive ExecutorKind where
  | manual
  | pool
  | runtime
deriving DecidableEq

/-- What an executor shows to its clients. -/
structure ExecutorView where
  name : String
  kind : ExecutorKind
  /-- How many jobs it keeps until it is told what to do with them. -/
  pending : Nat
  isShutDown : Bool

def Executor.view : Executor → ExecutorView
  | .manual m => ⟨m.name, .manual, m.jobs.length, false⟩
  | .pool _ p => ⟨"WorkerPool", .pool, 0, !p.accepting⟩
  | .runtime p => ⟨"TokioExecutor", .runtime, 0, !p.accepting⟩

end PubSub
