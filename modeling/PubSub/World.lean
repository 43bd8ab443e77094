import PubSub.History
import PubSub.Program

/-!
# Worlds and atomic steps

A world holds the buses, the executors, the declarations in force, the history and a memory that
belongs to the clients. `Step` lists what a thread can do in one indivisible action. A step that is
not possible in a world, such as the acquisition of a lock that another thread holds, has no result
there: the thread waits.
-/
namespace PubSub

variable {μ : Type}

/-- A thread that a client has started to run some of its code. -/
inductive Task where
  | ready (body : CodeId)
  | running
  | ended
deriving DecidableEq

structure World (μ : Type) where
  declarations : Declarations
  buses : List Bus
  executors : List Executor
  /-- The tasks that nobody has waited for yet, by the serial of their thread. -/
  tasks : Keyed Nat Task
  /-- What has happened, the latest first. -/
  history : List Entry
  /-- The next serial for threads and posts. -/
  serial : Nat
  /-- Milliseconds since the start. -/
  time : Nat
  memory : μ

namespace World

def start (memory : μ) : World μ := ⟨.silent, [], [], .empty, [], 0, 0, memory⟩

/-- A bus that was never opened counts as an empty one. -/
def bus (w : World μ) (b : BusId) : Bus := w.buses[b]?.getD default

def setBus (w : World μ) (b : BusId) (bus : Bus) : World μ :=
  { w with buses := w.buses.set b bus }

def setLocks (w : World μ) (b : BusId) (locks : Locks) : World μ :=
  w.setBus b { w.bus b with locks }

/-- An executor that was never opened refuses all jobs. -/
def executor (w : World μ) (e : ExecutorId) : Executor := w.executors[e]?.getD default

def setExecutor (w : World μ) (e : ExecutorId) (executor : Executor) : World μ :=
  { w with executors := w.executors.set e executor }

def pool (w : World μ) (e : ExecutorId) : Pool Job :=
  (w.executor e).pool?.getD (.start 0 none)

def setPool (w : World μ) (e : ExecutorId) (p : Pool Job) : World μ :=
  w.setExecutor e ((w.executor e).setPool p)

/-- All executors with threads of their own are at rest, leaving aside one thread. -/
def isAtRest (w : World μ) (thread : Thread) : Bool :=
  w.executors.zipIdx.all fun (executor, e) =>
    match executor.pool? with
    | none => true
    | some p => p.isAtRest fun i => thread ≠ .worker e i

def setTask (w : World μ) (serial : Nat) (task : Task) : World μ :=
  { w with tasks := w.tasks.insert serial task }

def record (w : World μ) (thread : Thread) (occurrence : Occurrence) : World μ :=
  { w with history := ⟨thread, occurrence⟩ :: w.history }

def recordAll (w : World μ) (thread : Thread) (occurrences : List Occurrence) : World μ :=
  occurrences.foldl (fun w o => w.record thread o) w

variable (w : World μ)

theorem bus_of_getElem? {w : World μ} {b : BusId} {bus : Bus} (h : w.buses[b]? = some bus) :
    w.bus b = bus := by
  rw [World.bus, h]
  rfl

theorem getElem?_buses {w : World μ} {b : BusId} (h : b < w.buses.length) :
    w.buses[b]? = some (w.bus b) := by
  rw [World.bus, List.getElem?_eq_getElem h]
  rfl

@[simp] theorem buses_record (t : Thread) (o : Occurrence) : (w.record t o).buses = w.buses := rfl

@[simp] theorem bus_record (t : Thread) (o : Occurrence) (b : BusId) :
    (w.record t o).bus b = w.bus b := rfl

@[simp] theorem length_setBus (b : BusId) (bus : Bus) :
    (w.setBus b bus).buses.length = w.buses.length := List.length_set ..

theorem bus_setBus (b : BusId) (bus : Bus) (h : b < w.buses.length) :
    (w.setBus b bus).bus b = bus := by
  simp only [World.bus, setBus, List.getElem?_set_self h]
  rfl

theorem bus_setBus_of_ne {b b' : BusId} (bus : Bus) (h : b ≠ b') :
    (w.setBus b bus).bus b' = w.bus b' := by
  simp only [World.bus, setBus, List.getElem?_set_ne h]

/-- Nothing changes where no bus is open. -/
theorem setBus_of_le {b : BusId} (bus : Bus) (h : w.buses.length ≤ b) : w.setBus b bus = w := by
  simp only [setBus, List.set_eq_of_length_le h]

end World

inductive Step (μ : Type) where
  /-- Reads a bus, which has to be open. -/
  | readBus (b : BusId)
  | readExecutor (e : ExecutorId)
  | record (thread : Thread) (occurrence : Occurrence)
  /-- Computes the table of an event type from the declarations in force, which run. -/
  | computeTable (thread : Thread) (b : BusId) (type : EventType)
  /-- Keeps a table on a bus that is open, unless the bus has one for this type. -/
  | keepTable (b : BusId) (type : EventType) (table : Table)
  | enrol (b : BusId) (owner : SubscriberId) (added : List Subscription)
  | dismiss (b : BusId) (owner : SubscriberId)
  /-- Takes a share of a handler's lock on a bus that is open. -/
  | share (b : BusId) (handler : HandlerKey)
  | acquire (b : BusId) (lock : LockId) (thread : Thread)
  | release (b : BusId) (lock : LockId)
  | unshare (b : BusId) (lock : LockId)
  | discard (b : BusId) (handler : HandlerKey)
  | prune (b : BusId)
  | offer (e : ExecutorId) (job : Job)
  | pick (e : ExecutorId) (place : Nat)
  | borrow (e : ExecutorId)
  | send (e : ExecutorId) (job : Job)
  | giveBack (e : ExecutorId)
  | close (e : ExecutorId)
  | claim (e : ExecutorId)
  | join (e : ExecutorId) (worker : Nat)
  | setRoom (e : ExecutorId) (room : Option Nat)
  | serial
  | startTask (body : CodeId)
  /-- Waits for the end of a task. -/
  | joinTask (task : Nat)
  /-- Waits until executors have nothing left to do but what this thread does itself. -/
  | rest (thread : Thread)
  | openBus (settings : BusSettings) (discipline : Discipline)
  | openExecutor (executor : Executor)
  | declare (type : EventType) (steps : List (Widening type))
  /-- Reads the clients' memory and changes it. -/
  | memory (change : μ → μ)
  | time
  /-- Waits for a condition on the memory, or until a point in time. -/
  | await (condition : μ → Bool) (deadline : Nat)

namespace Step

/-- What a thread learns from a step. -/
@[reducible] def Reply : Step μ → Type
  | .readBus _ => Bus
  | .readExecutor _ => Executor
  | .computeTable _ _ _ => Table
  | .keepTable _ _ _ => Table
  | .enrol _ _ _ => Bool
  | .dismiss _ _ => Option (List Subscription)
  | .share _ _ => LockId
  | .offer _ _ => Bool
  | .pick _ _ => Option Job
  | .borrow _ => Bool
  | .send _ _ => Bool
  | .claim _ => List Nat
  | .serial => Nat
  | .startTask _ => Nat
  | .openBus _ _ => BusId
  | .openExecutor _ => ExecutorId
  | .memory _ => μ
  | .time => Nat
  | _ => Unit

/-- The reply to a step and the world after it. -/
def run (w : World μ) : (s : Step μ) → Option (s.Reply × World μ)
  | .readBus b => w.buses[b]?.map fun bus => (bus, w)
  | .readExecutor e => some (w.executor e, w)
  | .record thread occurrence => some ((), w.record thread occurrence)
  | .computeTable thread b type =>
    some (w.declarations.table type,
      w.recordAll thread ((w.declarations.runs type).map fun run => .declared b run.1 run.2))
  | .keepTable b type table => w.buses[b]?.map fun bus =>
    let (kept, bus) := bus.keepTable type table
    (kept, w.setBus b bus)
  | .enrol b owner added =>
    match (w.bus b).roster.enrol owner added with
    | some roster => some (true, w.setBus b { w.bus b with roster })
    | none => some (false, w)
  | .dismiss b owner =>
    match (w.bus b).roster.dismiss owner with
    | some (removed, roster) => some (some removed, w.setBus b { w.bus b with roster })
    | none => some (none, w)
  | .share b handler => w.buses[b]?.map fun bus =>
    let (lock, locks) := bus.locks.share handler
    (lock, w.setLocks b locks)
  | .acquire b lock thread =>
    ((w.bus b).locks.acquire lock thread).map fun locks => ((), w.setLocks b locks)
  | .release b lock => some ((), w.setLocks b ((w.bus b).locks.release lock))
  | .unshare b lock => some ((), w.setLocks b ((w.bus b).locks.unshare lock))
  | .discard b handler => some ((), w.setLocks b ((w.bus b).locks.discard handler))
  | .prune b =>
    some ((), w.setLocks b ((w.bus b).locks.prune (w.bus b).roster.contains))
  | .offer e job =>
    let (accepted, executor) := (w.executor e).offer job
    some (accepted, w.setExecutor e executor)
  | .pick e place =>
    let (job, executor) := (w.executor e).pick place
    some (job, w.setExecutor e executor)
  | .borrow e =>
    match (w.pool e).borrow with
    | some p => some (true, w.setPool e p)
    | none => some (false, w)
  | .send e job => ((w.pool e).send job).map fun (sent, p) => (sent, w.setPool e p)
  | .giveBack e => some ((), w.setPool e (w.pool e).giveBack)
  | .close e => some ((), w.setPool e (w.pool e).close)
  | .claim e =>
    let (workers, p) := (w.pool e).claim
    some (workers, w.setPool e p)
  | .join e worker => if (w.pool e).hasLeft worker then some ((), w) else none
  | .setRoom e room => some ((), w.setExecutor e ((w.executor e).withRoom room))
  | .serial => some (w.serial, { w with serial := w.serial + 1 })
  | .startTask body =>
    some (w.serial, { w.setTask w.serial (.ready body) with serial := w.serial + 1 })
  | .joinTask task =>
    if w.tasks.get? task = some .ended then some ((), { w with tasks := w.tasks.erase task })
    else none
  | .rest thread => if w.isAtRest thread then some ((), w) else none
  | .openBus settings discipline =>
    some (w.buses.length, { w with buses := w.buses ++ [.fresh settings discipline] })
  | .openExecutor executor =>
    some (w.executors.length, { w with executors := w.executors ++ [executor] })
  | .declare type steps => some ((), { w with declarations := w.declarations.set type steps })
  | .memory change => some (w.memory, { w with memory := change w.memory })
  | .time => some (w.time, w)
  | .await condition deadline =>
    if condition w.memory || deadline ≤ w.time then some ((), w) else none

/-- Whether a step is possible now. Only steps that wait for another thread or for time to pass can
be impossible, and those that need an open bus. -/
def possible (w : World μ) : Step μ → Bool
  | .readBus b => w.buses[b]?.isSome
  | .keepTable b _ _ => w.buses[b]?.isSome
  | .share b _ => w.buses[b]?.isSome
  | .acquire b lock thread => ((w.bus b).locks.acquire lock thread).isSome
  | .send e _ => (w.pool e).deserted || (w.pool e).hasRoom
  | .join e worker => (w.pool e).hasLeft worker
  | .joinTask task => w.tasks.get? task = some .ended
  | .rest thread => w.isAtRest thread
  | .await condition deadline => condition w.memory || deadline ≤ w.time
  | _ => true

theorem possible_eq_isSome (w : World μ) (s : Step μ) : s.possible w = (s.run w).isSome := by
  cases s with
  | readBus b => simp [possible, run]
  | keepTable b type table => simp [possible, run]
  | share b handler => simp [possible, run]
  | acquire b lock thread => simp [possible, run]
  | send e job =>
    simp only [possible, run, Pool.send]
    by_cases deserted : (w.pool e).deserted <;> by_cases room : (w.pool e).hasRoom <;>
      simp [deserted, room]
  | join e worker => simp only [possible, run]; split <;> simp_all
  | joinTask task => simp only [possible, run]; split <;> simp_all
  | rest thread => simp only [possible, run]; split <;> simp_all
  | await condition deadline => simp only [possible, run]; split <;> simp_all
  | enrol b owner added => simp only [possible, run]; split <;> rfl
  | dismiss b owner => simp only [possible, run]; split <;> rfl
  | borrow e => simp only [possible, run]; split <;> rfl
  | _ => rfl

end Step

/-- A program whose steps act on a world. -/
abbrev Proc (μ α : Type) := Program (Step.Reply (μ := μ)) α

end PubSub
