import PubSub.World

/-!
# The steps as programs

One program for each atomic step, and the log records that buses and executors write.
-/
namespace PubSub

variable {μ : Type}

namespace Proc

def atom (s : Step μ) : Proc μ s.Reply := Program.ask s

def readBus (b : BusId) : Proc μ Bus := atom (.readBus b)

def readExecutor (e : ExecutorId) : Proc μ Executor := atom (.readExecutor e)

def record (thread : Thread) (occurrence : Occurrence) : Proc μ Unit :=
  atom (.record thread occurrence)

def computeTable (thread : Thread) (b : BusId) (type : EventType) : Proc μ Table :=
  atom (.computeTable thread b type)

def keepTable (b : BusId) (type : EventType) (table : Table) : Proc μ Table :=
  atom (.keepTable b type table)

def enrol (b : BusId) (owner : SubscriberId) (added : List Subscription) : Proc μ Bool :=
  atom (.enrol b owner added)

def dismiss (b : BusId) (owner : SubscriberId) : Proc μ (Option (List Subscription)) :=
  atom (.dismiss b owner)

def share (b : BusId) (handler : HandlerKey) : Proc μ LockId := atom (.share b handler)

def acquire (b : BusId) (lock : LockId) (thread : Thread) : Proc μ Unit :=
  atom (.acquire b lock thread)

def release (b : BusId) (lock : LockId) : Proc μ Unit := atom (.release b lock)

def unshare (b : BusId) (lock : LockId) : Proc μ Unit := atom (.unshare b lock)

def discard (b : BusId) (handler : HandlerKey) : Proc μ Unit := atom (.discard b handler)

def prune (b : BusId) : Proc μ Unit := atom (.prune b)

def offer (e : ExecutorId) (job : Job) : Proc μ Bool := atom (.offer e job)

def pick (e : ExecutorId) (place : Nat) : Proc μ (Option Job) := atom (.pick e place)

def borrow (e : ExecutorId) : Proc μ Bool := atom (.borrow e)

def send (e : ExecutorId) (job : Job) : Proc μ Bool := atom (.send e job)

def giveBack (e : ExecutorId) : Proc μ Unit := atom (.giveBack e)

def close (e : ExecutorId) : Proc μ Unit := atom (.close e)

def claim (e : ExecutorId) : Proc μ (List Nat) := atom (.claim e)

def join (e : ExecutorId) (worker : Nat) : Proc μ Unit := atom (.join e worker)

def setRoom (e : ExecutorId) (room : Option Nat) : Proc μ Unit := atom (.setRoom e room)

def serial : Proc μ Nat := atom .serial

def startTask (body : CodeId) : Proc μ Nat := atom (.startTask body)

def joinTask (task : Nat) : Proc μ Unit := atom (.joinTask task)

def rest (thread : Thread) : Proc μ Unit := atom (.rest thread)

def openBus (settings : BusSettings) (discipline : Discipline) : Proc μ BusId :=
  atom (.openBus settings discipline)

def openExecutor (executor : Executor) : Proc μ ExecutorId := atom (.openExecutor executor)

def declare (type : EventType) (steps : List (Widening type)) : Proc μ Unit :=
  atom (.declare type steps)

def memory (change : μ → μ) : Proc μ μ := atom (.memory change)

def time : Proc μ Nat := atom .time

def await (condition : μ → Bool) (deadline : Nat) : Proc μ Unit :=
  atom (.await condition deadline)

def log (thread : Thread) (level : Level) (target message : String)
    (fields : List (String × String)) : Proc μ Unit :=
  record thread (.logged ⟨level, target, message, fields⟩)

end Proc

/-- The target of the records that are common to both disciplines. -/
def dispatchTarget : String := "typebus::core::dispatcher"

/-- Code that a bus or an executor calls back, on the thread that calls it. -/
structure Client (μ : Type) where
  handle : CodeId → Object → Proc μ Reaction
  /-- Answers the payload of the panic in which the observer ended, if it did. -/
  observe : CodeId → Failure → Proc μ (Option Payload)
  work : CodeId → Proc μ (Option Payload)

end PubSub
