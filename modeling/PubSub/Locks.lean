import PubSub.Keyed
import PubSub.Subscriber

/-!
# Handler locks

Each exclusive handler of a bus has a lock, made when the handler is first invoked. An invocation
takes a share of the lock, acquires it, and gives both back in the opposite order. A thread that
holds a lock may acquire it again. The entry of a handler that is no longer registered goes away
once no invocation has a share.
-/
namespace PubSub

/-- The thread that drives a bus, threads started for one task, and the workers of executors. -/
inductive Thread where
  | main
  | started (serial : Nat)
  | worker (executor index : Nat)
deriving DecidableEq

/-- A lock object. Two locks made for one handler differ in their number. -/
structure LockId where
  serial : Nat
deriving DecidableEq

structure Lock where
  /-- Invocations that have a share of the lock, whether they hold it or wait for it. -/
  shares : Nat
  holder : Option Thread
  /-- How often the holder has acquired the lock. -/
  depth : Nat
deriving DecidableEq

def Lock.fresh : Lock := ⟨0, none, 0⟩

structure Locks where
  /-- The lock that a new invocation of a handler gets. -/
  entries : Keyed HandlerKey LockId
  locks : Keyed LockId Lock
  /-- The number of the next lock. -/
  next : Nat

namespace Locks

def empty : Locks := ⟨.empty, .empty, 0⟩

instance : Inhabited Locks := ⟨empty⟩

def lock (l : Locks) (id : LockId) : Lock := (l.locks.get? id).getD .fresh

def set (l : Locks) (id : LockId) (lock : Lock) : Locks :=
  { l with locks := l.locks.insert id lock }

/-- Takes a share of a handler's lock, which is made if the handler has none. -/
def share (l : Locks) (handler : HandlerKey) : LockId × Locks :=
  match l.entries.get? handler with
  | some id => (id, l.set id { l.lock id with shares := (l.lock id).shares + 1 })
  | none =>
    let id : LockId := ⟨l.next⟩
    (id, { l with entries := l.entries.insert handler id
                  locks := l.locks.insert id { Lock.fresh with shares := 1 }
                  next := l.next + 1 })

/-- Has no result while another thread holds the lock. -/
def acquire (l : Locks) (id : LockId) (thread : Thread) : Option Locks :=
  let lock := l.lock id
  match lock.holder with
  | none => some (l.set id { lock with holder := some thread, depth := 1 })
  | some holder =>
    if holder = thread then some (l.set id { lock with depth := lock.depth + 1 }) else none

/-- Undoes one acquisition by the thread that holds the lock. -/
def release (l : Locks) (id : LockId) : Locks :=
  let lock := l.lock id
  if lock.depth ≤ 1 then l.set id { lock with holder := none, depth := 0 }
  else l.set id { lock with depth := lock.depth - 1 }

def unshare (l : Locks) (id : LockId) : Locks :=
  l.set id { l.lock id with shares := (l.lock id).shares - 1 }

/-- Removes a handler's entry if no invocation has a share of its lock. -/
def discard (l : Locks) (handler : HandlerKey) : Locks :=
  match l.entries.get? handler with
  | some id =>
    if (l.lock id).shares = 0 then { l with entries := l.entries.erase handler } else l
  | none => l

/-- Removes the entries of handlers whose owner is gone and whose lock nobody has a share of. -/
def prune (l : Locks) (registered : SubscriberId → Bool) : Locks :=
  { l with entries := l.entries.filter fun handler id =>
      registered handler.owner || 0 < (l.lock id).shares }

end Locks

end PubSub
