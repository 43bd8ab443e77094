import PubSub.Text.Outline

/-!
# Errors and failures

What a bus operation, a handler and a delivery can end with, and the texts they are shown by. A
handler may return the error of a bus operation as its own, so errors and failures contain each
other.
-/
namespace PubSub

/-- What a panic carries. -/
inductive Payload where
  | literal (text : String)
  | owned (text : String)
  | other
deriving DecidableEq

def Payload.message : Payload → String
  | .literal text => text
  | .owned text => text
  | .other => "unknown panic"

@[simp] theorem Payload.message_literal (text : String) : (literal text).message = text := rfl

@[simp] theorem Payload.message_owned (text : String) : (owned text).message = text := rfl

@[simp] theorem Payload.message_other : other.message = "unknown panic" := rfl

/-- The delivery that a failure belongs to: which handler of which bus, and the posted event. -/
structure Site where
  bus : String
  subscriber : String
  method : String
  eventType : String
  event : String
deriving DecidableEq

mutual

inductive BusError where
  | noHandlers (subscriber : String)
  | wrongArity (subscriber method : String) (params : Nat)
  | notRegistered (subscriber : String)
  /-- A handler failed and the delivery stopped there. -/
  | handlerFailed (failure : Failure)
  /-- Handlers failed, and all others still got the event. -/
  | handlersFailed (failures : List Failure)
  | rejected (executor reason : String)
  | noThread (reason : String)

inductive HandlerError where
  | text (message : String)
  /-- An input or output error. -/
  | io (message : String)
  /-- Any other error of the client, with the messages of the errors below it. -/
  | foreign (message : String) (sources : List String)
  | bus (error : BusError)

inductive Cause where
  | error (error : HandlerError)
  | panicked (message : String)
  /-- The executor dropped the delivery before the handler ran. -/
  | abandoned (executor : String)

inductive Failure where
  | mk (site : Site) (cause : Cause)

end

def Failure.site : Failure → Site
  | .mk site _ => site

def Failure.cause : Failure → Cause
  | .mk _ cause => cause

mutual

def BusError.message : BusError → String
  | .noHandlers subscriber => s!"subscriber {subscriber} declares no handler methods"
  | .wrongArity subscriber method params =>
    s!"handler {subscriber}::{method} takes {params} parameters; exactly one is required"
  | .notRegistered subscriber => s!"subscriber {subscriber} is not registered"
  | .handlerFailed failure => failure.message
  | .handlersFailed failures => toString failures.length ++ " handlers failed during dispatch"
  | .rejected executor reason => s!"executor {executor} rejected job: {reason}"
  | .noThread reason => s!"failed to spawn worker thread: {reason}"

def HandlerError.message : HandlerError → String
  | .text message => message
  | .io message => message
  | .foreign message _ => message
  | .bus error => error.message

def Cause.message : Cause → String
  | .error error => error.message
  | .panicked message => s!"panicked: {message}"
  | .abandoned executor => s!"delivery dropped by executor {executor} before the handler ran"

def Failure.message : Failure → String
  | .mk site cause =>
    "handler " ++ site.subscriber ++ "::" ++ site.method ++ " failed on " ++ site.eventType
      ++ " (bus " ++ site.bus ++ "): " ++ cause.message

end

mutual

/-- The messages of the errors below this one, from the nearest to the deepest. A failure that
stopped a delivery speaks through the error that carries it, so its cause comes first. -/
def BusError.sources : BusError → List String
  | .handlerFailed failure => failure.sources
  | .noThread reason => [reason]
  | _ => []

def HandlerError.sources : HandlerError → List String
  | .foreign _ sources => sources
  | .bus error => error.sources
  | _ => []

def Cause.sources : Cause → List String
  | .error error => error.message :: error.sources
  | _ => []

def Failure.sources : Failure → List String
  | .mk _ cause => cause.message :: cause.sources

end

def BusError.label : BusError → String
  | .noHandlers _ => "bus_no_subscriber_methods"
  | .wrongArity _ _ _ => "bus_invalid_handler_signature"
  | .notRegistered _ => "bus_object_not_registered"
  | .handlerFailed _ => "bus_handler_failed"
  | .handlersFailed _ => "bus_handlers_failed"
  | .rejected _ _ => "bus_executor_rejected"
  | .noThread _ => "bus_worker_spawn"

/-- The failures that an error carries, in dispatch order. -/
def BusError.failures : BusError → List Failure
  | .handlerFailed failure => [failure]
  | .handlersFailed failures => failures
  | _ => []

def Cause.kind : Cause → String
  | .error _ => "error"
  | .panicked _ => "panicked"
  | .abandoned _ => "abandoned"

/-- The outline of an error that carries neither failures nor an error of the system. -/
def BusError.outline? : BusError → Option Text.Outline
  | .noHandlers subscriber =>
    some (.record "NoSubscriberMethods" [("subscriber", .quote subscriber)] false)
  | .wrongArity subscriber method params =>
    some (.record "InvalidHandlerSignature"
      [("subscriber", .quote subscriber), ("method", .quote method),
        ("params", .word (toString params))] false)
  | .notRegistered subscriber =>
    some (.record "ObjectNotRegistered" [("subscriber", .quote subscriber)] false)
  | .handlersFailed [] => some (.record "HandlersFailed" [("failures", .list [])] false)
  | .rejected executor reason =>
    some (.record "ExecutorRejected"
      [("executor", .quote executor), ("reason", .quote reason)] false)
  | _ => none

end PubSub
