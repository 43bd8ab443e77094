import PubSub.Enrolment
import PubSub.Submission

/-!
# What clients can do

Handlers, observers and jobs are written by clients. `Call` is all that a client can do in one go,
and a `Body` is a program over calls: it reaches the library through these and in no other way. The
meaning of a call is a program over atomic steps. Since a post runs handlers that may post again,
this meaning is given up to a depth of nesting; a program that nests deeper gives no result.
-/
namespace PubSub

variable {μ : Type}

inductive Call (μ : Type) where
  | readBus (b : BusId)
  | readExecutor (e : ExecutorId)
  | post (b : BusId) (event : Event)
  /-- Runs some work of the client on a thread of its own. -/
  | startTask (body : CodeId)
  /-- Waits for the end of a task. -/
  | joinTask (task : Nat)
  /-- Waits until the executors have done all that has been submitted so far. -/
  | rest
  | register (b : BusId) (subscriber : Subscriber)
  | unregister (b : BusId) (owner : SubscriberId) (name : String)
  | reaches (b : BusId) (type : EventType)
  | assignable (b : BusId) (type : EventType)
  | declare (type : EventType) (steps : List (Widening type))
  | openBus (settings : BusSettings) (discipline : Discipline)
  | openManual (name : String) (room : Option Nat) (rejection : BusError)
  | startPool (settings : PoolSettings)
  | startRuntime
  | submit (e : ExecutorId) (label : String) (body : CodeId)
  | shutdown (e : ExecutorId)
  | setRoom (e : ExecutorId) (room : Option Nat)
  /-- Runs a stored job on a thread of its own and waits for it. -/
  | runAt (e : ExecutorId) (place : Nat)
  | dropAt (e : ExecutorId) (place : Nat)
  /-- Runs the oldest job, again and again, until no job is left. -/
  | runAll (e : ExecutorId)
  /-- Writes into the history that an operation ended. -/
  | note (operation : String) (answer : Answer)
  | memory (change : μ → μ)
  /-- Waits for a condition on the memory, for so many milliseconds at most. -/
  | await (condition : μ → Bool) (patience : Nat)

namespace Call

@[reducible] def Reply : Call μ → Type
  | .readBus _ => BusView
  | .readExecutor _ => ExecutorView
  | .post _ _ => Outcome
  | .startTask _ => Nat
  | .register _ _ => Except BusError Unit
  | .unregister _ _ _ => Except BusError Unit
  | .reaches _ _ => Bool
  | .assignable _ _ => List Topic
  | .openBus _ _ => BusId
  | .openManual _ _ _ => ExecutorId
  | .startPool _ => ExecutorId
  | .startRuntime => ExecutorId
  | .submit _ _ _ => Except BusError Unit
  | .memory _ => μ
  | _ => Unit

end Call

abbrev Body (μ α : Type) := Program (Call.Reply (μ := μ)) α

/-- The code behind the callbacks. -/
structure Behaviour (μ : Type) where
  handle : CodeId → Object → Body μ Reaction
  observe : CodeId → Failure → Body μ (Option Payload)
  work : CodeId → Body μ (Option Payload)

/-- The number of processors. No answer shows it. -/
def processors : Nat := 1

/-- Starts a pool of workers. -/
def startPool (t : Thread) (settings : PoolSettings) : Proc μ ExecutorId := do
  let threads := settings.threadsOn processors
  let id ← Proc.openExecutor (.pool settings.threadName (.start threads settings.bound))
  let queue := match settings.bound with
    | none => "None"
    | some bound => "Some(" ++ toString bound ++ ")"
  Proc.log t .debug "typebus::executors::pool" "worker pool started"
    [("threads", toString threads), ("queue", queue)]
  return id

/-- Runs stored jobs from the oldest on, at most `limit` of them. -/
def runStored (client : Client μ) (t : Thread) (e : ExecutorId) : (limit : Nat) → Proc μ Unit
  | 0 => .never
  | limit + 1 => do
    match ← Proc.pick e 0 with
    | none => return ()
    | some job =>
      let _ ← runJob client t job
      runStored client t e limit

namespace Behaviour

/-- The client that runs bodies on a thread, given what a call means there. -/
def client (β : Behaviour μ) (meaning : (c : Call μ) → Proc μ c.Reply) : Client μ where
  handle body object := (β.handle body object).expand meaning
  observe body failure := (β.observe body failure).expand meaning
  work body := (β.work body).expand meaning

/-- The meaning of a call on a thread, for calls nested less than `depth` deep. -/
def perform (β : Behaviour μ) : (depth : Nat) → Thread → (c : Call μ) → Proc μ c.Reply
  | 0, _, _ => .never
  | depth + 1, t, c =>
    let on (t : Thread) : Client μ := β.client (β.perform depth t)
    match c with
    | .readBus b => do
      let bus ← Proc.readBus b
      return bus.view
    | .readExecutor e => do
      let executor ← Proc.readExecutor e
      return executor.view
    | .post b event => post (on t) t b event
    | .startTask body => Proc.startTask body
    | .joinTask task => Proc.joinTask task
    | .rest => Proc.rest t
    | .register b subscriber => register t b subscriber
    | .unregister b owner name => unregister t b owner name
    | .reaches b type => do
      let found ← selection t b type
      return !found.isEmpty
    | .assignable b type => do
      let table ← tableOf t b type
      return table.topics
    | .declare type steps => Proc.declare type steps
    | .openBus settings discipline => Proc.openBus settings discipline
    | .openManual name room rejection => Proc.openExecutor (.manual ⟨name, room, rejection, []⟩)
    | .startPool settings => startPool t settings
    | .startRuntime => Proc.openExecutor (.runtime (.start 1 none))
    | .submit e label body => submit (on t) t e (.work label body)
    | .shutdown e => shutdown t e
    | .setRoom e room => Proc.setRoom e room
    | .runAt e place => do
      match ← Proc.pick e place with
      | none => return ()
      | some job =>
        let serial ← Proc.serial
        let _ ← runJob (on (.started serial)) (.started serial) job
    | .dropAt e place => do
      match ← Proc.pick e place with
      | none => return ()
      | some job => dropJob (on t) t job
    | .runAll e => do
      let serial ← Proc.serial
      runStored (on (.started serial)) (.started serial) e depth
    | .note operation answer => Proc.record t (.nested operation answer)
    | .memory change => Proc.memory change
    | .await condition patience => do
      let now ← Proc.time
      Proc.await condition (now + patience)

/-- The program that runs a body on a thread. -/
def run {α : Type} (β : Behaviour μ) (depth : Nat) (t : Thread) (body : Body μ α) : Proc μ α :=
  body.expand (β.perform depth t)

end Behaviour

end PubSub
