import PubSub.Bus
import PubSub.Failure

/-!
# Answers of operations

What an operation answers to whoever asked for it.
-/
namespace PubSub

/-- What a handler or a raw job does in the end. -/
inductive Reaction where
  | fine
  | failed (error : HandlerError)
  | panicked (payload : Payload)

/-- How a post ends for the publisher. -/
inductive Outcome where
  | ok
  | failed (error : BusError)
  | panicked (payload : Payload)

/-- How two types that handlers ask for compare. -/
structure TopicComparison where
  name : String
  shown : String
  outline : String
  equal : Bool

inductive Answer where
  | done
  | flag (value : Bool)
  | flags (values : List Bool)
  | count (value : Nat)
  | text (value : String)
  | texts (values : List String)
  | subscriptions (values : List Subscription)
  | failed (error : BusError)
  | panicked (payload : Payload)
  | each (answers : List Answer)
  /-- The largest number of handlers that were inside each probe group at once. -/
  | storm (peaks : List (String × Nat)) (posts : List Answer)
  /-- An executor with threads of its own; their number is hidden where the machine chose it. -/
  | pool (name : String) (threads : Option Nat) (isShutdown : Bool)
  | comparison (c : TopicComparison)
  | poolSettings (threads : Option Nat) (bound : Option Nat) (outline : String)
  | description (error : BusError) (outline : Option String)
  | cause (message : String) (source : Option String)
  /-- The operation names something that does not exist. -/
  | unknown (label : String)

namespace Answer

def ofOutcome : Outcome → Answer
  | .ok => .done
  | .failed error => .failed error
  | .panicked payload => .panicked payload

def ofExcept : Except BusError Unit → Answer
  | .ok () => .done
  | .error error => .failed error

end Answer

end PubSub
