import PubSub.Proc

/-!
# Handling

How a bus finds the handlers of an event, runs one of them under its lock, tells the observers
about a failure, and delivers an event on the publisher's thread.
-/
namespace PubSub

open Proc

variable {μ : Type}

/-- The table of an event type on a bus. The first use computes it; threads that use it first at
the same time all get the one that was stored first. -/
def tableOf (t : Thread) (b : BusId) (type : EventType) : Proc μ Table := do
  let bus ← readBus b
  match bus.tables.get? type with
  | some table => return table
  | none =>
    let table ← computeTable t b type
    keepTable b type table

/-- The handlers that an event of this type reaches, all read from one view of the roster. -/
def selection (t : Thread) (b : BusId) (type : EventType) : Proc μ (List Selection) := do
  let table ← tableOf t b type
  let bus ← readBus b
  return bus.roster.select table

/-- Finds the handlers for a post. -/
def findHandlers (t : Thread) (b : BusId) (type : EventType) : Proc μ (List Selection) := do
  let found ← selection t b type
  let bus ← readBus b
  if found.isEmpty then
    log t .debug dispatchTarget "no subscribers; event dropped"
      [("bus", bus.settings.identifier), ("event_type", type.name)]
  else
    log t .debug dispatchTarget "dispatching"
      [("bus", bus.settings.identifier), ("event_type", type.name),
        ("handlers", toString found.length)]
  return found

/-- Runs `body` while no other thread is inside a body for the same exclusive handler. The lock is
given back before anybody learns how the body ended. -/
def exclusively {α : Type} (t : Thread) (b : BusId) (s : Subscription) (body : Proc μ α) :
    Proc μ α := do
  if s.concurrent then
    body
  else
    let lock ← share b s.id
    acquire b lock t
    let result ← body
    release b lock
    unshare b lock
    let bus ← readBus b
    if bus.roster.contains s.id.owner then
      return result
    else
      discard b s.id
      return result

/-- The message of a handler that was reached by a route it does not fit. -/
def refusal (topic : Topic) (type : EventType) : String :=
  topic.name ++ " handler cannot accept " ++ type.name

/-- Runs one handler. -/
def runHandler (client : Client μ) (t : Thread) (d : Delivery) : Proc μ Reaction :=
  let i := d.invocation
  exclusively t i.bus i.subscription do
    match d.route.follow i.event i.subscription.topic with
    | none => return .failed (.text (refusal i.subscription.topic i.event.type))
    | some object =>
      record t (.called i object)
      let reaction ← client.handle i.subscription.body object
      record t (.ended i reaction)
      return reaction

/-- Hands a failure to one observer. A panic of the observer ends here. -/
def tellOne (client : Client μ) (t : Thread) (identifier : String) (i : Invocation)
    (failure : Failure) (place : Nat) (observer : Observer) : Proc μ Unit := do
  record t (.reported i place observer failure)
  match observer with
  | .log => return ()
  | .custom _ name body =>
    match ← client.observe body failure with
    | none => return ()
    | some payload =>
      log t .error dispatchTarget "failure observer panicked"
        [("bus", identifier), ("observer", name), ("panic", payload.message)]

/-- Hands the failure of an invocation to all observers of its bus, in their order. -/
def tellAll (client : Client μ) (t : Thread) (i : Invocation) (cause : Cause) :
    Proc μ Failure := do
  let bus ← readBus i.bus
  let failure := i.failure bus.settings.identifier cause
  Program.forEach bus.observers.zipIdx fun (observer, place) =>
    tellOne client t bus.settings.identifier i failure place observer
  return failure

/-- Runs the handlers one after another. A panic is reported and goes on to the publisher; an error
is reported and then treated as the policy says. -/
def deliverAll (client : Client μ) (t : Thread) (policy : ErrorPolicy)
    (failures : List Failure) : List Delivery → Proc μ Outcome
  | [] => return if failures.isEmpty then .ok else .failed (.handlersFailed failures)
  | d :: rest => do
    match ← runHandler client t d with
    | .fine => deliverAll client t policy failures rest
    | .panicked payload =>
      let _ ← tellAll client t d.invocation (.panicked payload.message)
      return .panicked payload
    | .failed error =>
      let failure ← tellAll client t d.invocation (.error error)
      match policy with
      | .propagate => return .failed (.handlerFailed failure)
      | .collect => deliverAll client t policy (failures ++ [failure]) rest

end PubSub
