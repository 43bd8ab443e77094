import PubSub.Handling

/-!
# Jobs: submission, run and loss

How a job comes to an executor, what running and dropping it mean, and how a bus with an executor
delivers an event. A job that an executor refuses is dropped before the refusal is answered.
-/
namespace PubSub

open Proc

variable {μ : Type}

/-- Runs a job. A delivery keeps what happens in it to itself and the observers; other work passes
on the panic in which it ended, if it did. -/
def runJob (client : Client μ) (t : Thread) : Job → Proc μ (Option Payload)
  | .delivery d _ => do
    match ← runHandler client t d with
    | .fine => pure ()
    | .failed error =>
      let _ ← tellAll client t d.invocation (.error error)
    | .panicked payload =>
      let _ ← tellAll client t d.invocation (.panicked payload.message)
    record t (.settled d.invocation)
    return none
  | .work label body => do
    record t (.worked label)
    client.work body

/-- Drops a job that has not run. A lost delivery is reported. -/
def dropJob (client : Client μ) (t : Thread) : Job → Proc μ Unit
  | .delivery d executor => do
    record t (.dropped d.invocation executor)
    let _ ← tellAll client t d.invocation (.abandoned executor)
    record t (.settled d.invocation)
  | .work _ _ => return ()

/-- Sends a job to the workers of an executor: whether they will take it, or nothing if the executor
has been shut down. -/
def sendToWorkers (e : ExecutorId) (job : Job) : Proc μ (Option Bool) := do
  if ← borrow e then
    let sent ← send e job
    giveBack e
    return some sent
  else
    return none

/-- Hands a job to an executor, which stores it or refuses it. A runtime that has stopped drops
jobs without a word. -/
def submit (client : Client μ) (t : Thread) (e : ExecutorId) (job : Job) :
    Proc μ (Except BusError Unit) := do
  let executor ← readExecutor e
  match executor with
  | .manual m =>
    if ← offer e job then
      return .ok ()
    else
      dropJob client t job
      return .error m.rejection
  | .pool _ _ =>
    match ← sendToWorkers e job with
    | some true => return .ok ()
    | some false =>
      dropJob client t job
      return .error (.rejected executor.view.name "worker queue closed")
    | none =>
      dropJob client t job
      return .error (.rejected executor.view.name "worker pool is shut down")
  | .runtime _ =>
    match ← sendToWorkers e job with
    | some true => return .ok ()
    | _ =>
      dropJob client t job
      return .ok ()

/-- Submits one job per delivery, in order, until the executor refuses one. -/
def submitAll (client : Client μ) (t : Thread) (e : ExecutorId) :
    List Delivery → Proc μ Outcome
  | [] => return .ok
  | d :: rest => do
    let executor ← readExecutor e
    let name := executor.view.name
    record t (.submitted d.invocation)
    match ← submit client t e (.delivery d name) with
    | .ok () => submitAll client t e rest
    | .error error =>
      let bus ← readBus d.invocation.bus
      log t .warn "typebus::core::async_bus" "delivery job rejected"
        [("bus", bus.settings.identifier), ("executor", name),
          ("subscriber", d.invocation.subscription.subscriber),
          ("method", d.invocation.subscription.method), ("error", error.message)]
      return .failed error

/-- Posts an event. The bus delivers it on this thread or through its executor. -/
def post (client : Client μ) (t : Thread) (b : BusId) (event : Event) : Proc μ Outcome := do
  let id ← serial
  let found ← findHandlers t b event.type
  let selected := deliveries id b event found
  record t (.selected id (selected.map Delivery.invocation))
  let bus ← readBus b
  let outcome ← match bus.discipline with
    | .publisher => deliverAll client t bus.settings.policy [] selected
    | .executor e => submitAll client t e selected
  record t (.answered id outcome)
  return outcome

/-- Closes an executor and waits for the workers it can still claim, except for the worker that
this runs on. -/
def shutdown (t : Thread) (e : ExecutorId) : Proc μ Unit := do
  close e
  let workers ← claim e
  Program.forEach workers fun worker =>
    if t = .worker e worker then return () else join e worker

/-- What a worker of an executor does with a job that it has taken. -/
def serve (client : Client μ) (e worker : Nat) (job : Job) : Proc μ Unit := do
  let ended ← runJob client (.worker e worker) job
  let executor ← readExecutor e
  match ended, executor with
  | some payload, .pool threadName _ =>
    log (.worker e worker) .error "typebus::executors::pool" "job panicked"
      [("worker", threadName ++ "-" ++ toString worker), ("panic", payload.message)]
  | _, _ => return ()

end PubSub
