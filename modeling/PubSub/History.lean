import PubSub.Answer
import PubSub.Executor

/-!
# Histories

Everything that happens in a world is written into its history, with the thread on which it
happened. What a bus logs is part of it.
-/
namespace PubSub

inductive Level where
  | debug
  | warn
  | error
deriving DecidableEq

structure LogRecord where
  level : Level
  target : String
  message : String
  /-- Names and values, in the order in which they are written. -/
  fields : List (String × String)
deriving DecidableEq

inductive Occurrence where
  /-- A subscriber was asked for its handlers. -/
  | listed (owner : SubscriberId) (handlers : List String)
  /-- For a bus, a declaration of supertypes ran to its end. -/
  | declared (bus : BusId) (type : EventType) (collected : List Topic)
  /-- A post selected its handlers. -/
  | selected (post : PostId) (invocations : List Invocation)
  /-- A post came to its end. -/
  | answered (post : PostId) (outcome : Outcome)
  /-- A handler started. -/
  | called (invocation : Invocation) (object : Object)
  /-- A handler ended. -/
  | ended (invocation : Invocation) (reaction : Reaction)
  /-- A failure was handed to the observer at a place in the list of a bus. -/
  | reported (invocation : Invocation) (place : Nat) (observer : Observer) (failure : Failure)
  | logged (record : LogRecord)
  /-- A delivery was handed to an executor. -/
  | submitted (invocation : Invocation)
  /-- A delivery was dropped unrun by the executor of this name. -/
  | dropped (invocation : Invocation) (executor : String)
  /-- The job of a delivery came to its end: it has been run, or its loss has been reported. -/
  | settled (invocation : Invocation)
  /-- Work that is not a delivery started. -/
  | worked (label : String)
  /-- An operation ended that a handler, an observer or a job performed. -/
  | nested (operation : String) (answer : Answer)

structure Entry where
  thread : Thread
  occurrence : Occurrence

end PubSub
