import PubSub.Event
import PubSub.Failure

/-!
# Subscribers and their handlers

A subscriber declares its handlers in order. It subscribes with all of them or with none: each
becomes a subscription that keeps the subscriber's name and the handler's code as of that moment.
-/
namespace PubSub

/-- An object that owns handlers. Two objects made under one label differ in `serial`. -/
structure SubscriberId where
  label : String
  serial : Nat
deriving DecidableEq

structure HandlerKey where
  owner : SubscriberId
  /-- The handler's place in its owner's declaration. -/
  place : Nat
deriving DecidableEq

/-- Code that a client hands to a bus or an executor to be called back. -/
structure CodeId where
  serial : Nat
deriving DecidableEq

inductive Parameters where
  | one (topic : Topic)
  /-- A number of parameters other than one. -/
  | count (params : Nat)
deriving DecidableEq

/-- One handler as its owner declares it. -/
structure Handler where
  name : String
  /-- Invocations may overlap. -/
  concurrent : Bool
  parameters : Parameters
  body : CodeId
deriving DecidableEq

/-- An object as it presents itself at one moment. -/
structure Subscriber where
  owner : SubscriberId
  name : String
  handlers : List Handler

structure Subscription where
  id : HandlerKey
  subscriber : String
  method : String
  topic : Topic
  concurrent : Bool
  body : CodeId
deriving DecidableEq

namespace Subscription

/-- The part of a subscription that its outline shows. -/
def outline (s : Subscription) : Text.Outline :=
  .record "Subscription"
    [("subscriber", .quote s.subscriber), ("method", .quote s.method),
      ("event_type", .wrap "TypeKey" (.quote s.topic.name)),
      ("concurrency_allowed", .word (toString s.concurrent))] true

end Subscription

namespace Subscriber

/-- The first declared handler that does not take exactly one parameter. -/
def invalid? (s : Subscriber) : Option (String × Nat) :=
  s.handlers.findSome? fun h =>
    match h.parameters with
    | .one _ => none
    | .count params => some (h.name, params)

def subscription? (s : Subscriber) (place : Nat) (h : Handler) : Option Subscription :=
  match h.parameters with
  | .one topic => some ⟨⟨s.owner, place⟩, s.name, h.name, topic, h.concurrent, h.body⟩
  | .count _ => none

def subscriptions (s : Subscriber) : List Subscription :=
  s.handlers.zipIdx.filterMap fun (h, place) => s.subscription? place h

/-- One subscription for each declared handler, or the reason why there can be none. -/
def subscribe (s : Subscriber) : Except BusError (List Subscription) :=
  if s.handlers.isEmpty then .error (.noHandlers s.name)
  else
    match s.invalid? with
    | some (method, params) => .error (.wrongArity s.name method params)
    | none => .ok s.subscriptions

end Subscriber

end PubSub
