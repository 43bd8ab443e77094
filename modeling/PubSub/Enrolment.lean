import PubSub.Proc

/-!
# Enrolment

Registration takes all handlers of an object or none. An object that is already registered is left
as it was registered.
-/
namespace PubSub

open Proc

variable {μ : Type}

def register (t : Thread) (b : BusId) (s : Subscriber) : Proc μ (Except BusError Unit) := do
  record t (.listed s.owner (s.handlers.map Handler.name))
  let bus ← readBus b
  match s.subscribe with
  | .error error =>
    log t .debug dispatchTarget "registration rejected"
      [("bus", bus.settings.identifier), ("subscriber", s.name), ("error", error.message)]
    return .error error
  | .ok subscriptions =>
    if ← enrol b s.owner subscriptions then
      log t .debug dispatchTarget "subscriber registered"
        [("bus", bus.settings.identifier), ("subscriber", s.name),
          ("handlers", toString subscriptions.length)]
      return .ok ()
    else
      log t .debug dispatchTarget "subscriber already registered"
        [("bus", bus.settings.identifier), ("subscriber", s.name)]
      return .ok ()

/-- Removes an object, known at this moment as `name`, and the locks that nobody uses any more. -/
def unregister (t : Thread) (b : BusId) (owner : SubscriberId) (name : String) :
    Proc μ (Except BusError Unit) := do
  match ← dismiss b owner with
  | none => return .error (.notRegistered name)
  | some removed =>
    prune b
    let bus ← readBus b
    log t .debug dispatchTarget "subscriber unregistered"
      [("bus", bus.settings.identifier), ("subscriber", name),
        ("handlers", toString removed.length)]
    return .ok ()

end PubSub
