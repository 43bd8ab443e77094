import PubSub.Answer
import PubSub.Executor

/-!
# Scripts

A script drives buses by operations. What it names by labels of its own choice are buses,
subscribers, observers and executors. Handlers, observers and jobs are scripted too: they perform
actions, which may be operations.
-/
namespace PubSub.Script

/-- When an action is performed: by the number that the handler received, or by how often it has
been called. -/
inductive Condition where
  | above (bound : Int)
  | equals (number : Int)
  | call (count : Nat)

/-- The number of a posted event: given, or relative to the number that the handler received. -/
inductive Amount where
  | exactly (number : Int64)
  | shifted (delta : Int64)

structure EventText where
  type : EventType
  amount : Amount
  text : String

def EventText.event (e : EventText) (received : Int64) : Event :=
  { type := e.type
    number := match e.amount with
      | .exactly number => number
      | .shifted delta => received + delta
    text := e.text }

/-- A place where handlers of one group meet: each enters, waits until `wanted` of them have been
inside at once, for `patience` milliseconds at most, and leaves. -/
structure Probe where
  group : String
  wanted : Nat
  patience : Nat

inductive SetupStyle where
  | standard
  | builder
  | fields
  | named

/-- How a script describes a bus. -/
structure BusSetup where
  style : SetupStyle
  identifier : Option String
  policy : Option ErrorPolicy
  observers : List String
  moreObservers : List String
  executor : Option String

structure ManualSetup where
  name : String
  anonymous : Bool
  room : Option Nat
  reason : String

/-- A subscription of a bus, by its type and its place among the subscriptions for that type. -/
structure SubscriptionPlace where
  bus : String
  topic : Topic
  place : Nat

inductive SubscriptionForm where
  | rows
  | outlines (pretty : Bool)

mutual

inductive Action where
  | fail (when? : Option Condition) (error : HandlerError)
  | raise (when? : Option Condition) (payload : Payload)
  /-- An action may pass the error or panic of its operation on as its own. -/
  | perform (when? : Option Condition) (operation : Operation) (pass : Bool)

inductive HandlerText where
  | mk (name : String) (concurrent : Bool) (parameters : Parameters) (probe : Option Probe)
      (actions : List Action)

inductive Operation where
  | declare (type : EventType) (steps : List (Widening type))
  | observer (label : String) (anonymous : Bool) (actions : List Action)
  | subscriber (label : String) (name : Option String) (handlers : List HandlerText)
  | redefine (label : String) (name : Option (Option String)) (handlers : Option (List HandlerText))
  | bus (label : String) (setup : BusSetup)
  | clone (label copy : String)
  | dropBus (label : String)
  | settingsText (setup : BusSetup) (pretty : Bool)
  | busText (bus : String) (pretty : Bool)
  | identifier (bus : String)
  | count (bus : String)
  | types (bus : String)
  | has (bus : String) (type : EventType)
  | assignable (bus : String) (type : EventType)
  | isRegistered (bus subscriber : String)
  | subscriptions (bus : String) (topic : Topic) (form : SubscriptionForm)
  | sameSubscription (a b : SubscriptionPlace)
  | register (bus subscriber : String)
  | unregister (bus subscriber : String)
  | post (bus : String) (event : EventText) (elsewhere : Bool)
  | storm (posts : List (String × EventText))
  | manual (label : String) (setup : ManualSetup)
  | accept (executor : String) (room : Option Nat)
  | pending (executor : String)
  | run (executor : String) (place : Nat)
  | drop (executor : String) (place : Nat)
  | runAll (executor : String)
  | pool (label : String) (settings : PoolSettings)
  | shutdown (executor : String)
  | isShutdown (executor : String)
  | submit (executor label : String) (actions : List Action)
  | burst (executor : String) (labels : List String) (drops : Bool)
  | runtime (label : String)
  | stopRuntime (executor : String)
  | runtimeOutside
  | compareTopics (a b : Topic)
  | poolSettings (settings : PoolSettings) (pretty : Bool)
  | describeError (error : BusError) (pretty : Bool)
  | describeCause (cause : Cause)

end

/-- The name under which an operation is written into the history. -/
def Operation.name : Operation → String
  | .declare _ _ => "declare"
  | .observer _ _ _ => "observer"
  | .subscriber _ _ _ => "sub"
  | .redefine _ _ _ => "redefine"
  | .bus _ _ => "bus"
  | .clone _ _ => "clone"
  | .dropBus _ => "drop_bus"
  | .settingsText _ _ => "config_debug"
  | .busText _ _ => "debug"
  | .identifier _ => "identifier"
  | .count _ => "count"
  | .types _ => "types"
  | .has _ _ => "has"
  | .assignable _ _ => "assignable"
  | .isRegistered _ _ => "is_registered"
  | .subscriptions _ _ _ => "subs_for"
  | .sameSubscription _ _ => "sub_eq"
  | .register _ _ => "register"
  | .unregister _ _ => "unregister"
  | .post _ _ _ => "post"
  | .storm _ => "storm"
  | .manual _ _ => "manual"
  | .accept _ _ => "accept"
  | .pending _ => "pending"
  | .run _ _ => "run"
  | .drop _ _ => "drop"
  | .runAll _ => "run_all"
  | .pool _ _ => "pool"
  | .shutdown _ => "shutdown"
  | .isShutdown _ => "is_shutdown"
  | .submit _ _ _ => "submit"
  | .burst _ _ _ => "burst"
  | .runtime _ => "tokio"
  | .stopRuntime _ => "stop_runtime"
  | .runtimeOutside => "tokio_outside"
  | .compareTopics _ _ => "typekey"
  | .poolSettings _ _ => "pool_config"
  | .describeError _ _ => "bus_error"
  | .describeCause _ => "cause"

end PubSub.Script
