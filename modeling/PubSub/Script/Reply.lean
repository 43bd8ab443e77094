import PubSub.Answer
import PubSub.Text.Document

/-!
# Replies

Answers as documents, in the form in which a script reports them. Fields without content are left
out.
-/
namespace PubSub.Script

open Text (Document)

def texts (values : List String) : Document := .items (values.map .text)

def optional {α : Type} (f : α → Document) : Option α → Document
  | some a => f a
  | none => .null

/-- A field that is left out if it has no items. -/
def unlessEmpty (name : String) (values : List Document) : List (String × Document) :=
  if values.isEmpty then [] else [(name, .items values)]

/-- The eight texts that describe a failure. -/
def failureTexts (f : Failure) : List String :=
  [f.site.bus, f.site.subscriber, f.site.method, f.site.eventType, f.site.event,
    f.cause.kind, f.cause.message, f.message]

def chain (e : BusError) : List (String × Document) := unlessEmpty "chain" (e.sources.map .text)

def errorReply (e : BusError) : Document :=
  .fields ([("error", .text e.label), ("message", .text e.message)] ++ chain e
    ++ unlessEmpty "failures" (e.failures.map fun f => texts (failureTexts f)))

/-- A payload that is no text is shown as an empty one. -/
def panicReply : Payload → Document
  | .literal text => .fields [("panic", .text text), ("payload", .text "str")]
  | .owned text => .fields [("panic", .text text), ("payload", .text "string")]
  | .other => .fields [("panic", .text ""), ("payload", .text "other")]

def subscriptionReply (s : Subscription) : Document :=
  .items [.text s.subscriber, .text s.method, .text s.topic.name, .flag s.concurrent,
    .number s.id.place]

def comparisonReply (c : TopicComparison) : Document :=
  .fields [("name", .text c.name), ("display", .text c.shown), ("debug", .text c.outline),
    ("eq", .flag c.equal), ("is", .flag c.equal), ("same_id", .flag c.equal),
    ("same_hash", .flag c.equal)]

mutual

def reply : Answer → Document
  | .done => .text "ok"
  | .flag value => .flag value
  | .flags values => .items (values.map .flag)
  | .count value => .number value
  | .text value => .text value
  | .texts values => texts values
  | .subscriptions values => .items (values.map subscriptionReply)
  | .failed error => errorReply error
  | .panicked payload => panicReply payload
  | .each answers => .items (replies answers)
  | .storm peaks posts =>
    .fields [("max", .fields (peaks.map fun peak => (peak.1, .number peak.2))),
      ("posts", .items (replies posts))]
  | .pool name threads isShutdown =>
    .items [.text name, threads.elim (.flag true) .number, .flag isShutdown]
  | .comparison c => comparisonReply c
  | .poolSettings threads bound outline =>
    .fields [("threads", threads.elim (.text "auto") .number), ("bound", optional .number bound),
      ("debug", .text outline)]
  | .description error outline =>
    .fields ([("label", .text error.label), ("message", .text error.message)] ++ chain error
      ++ [("debug", optional .text outline)])
  | .cause message source => .items [.text message, optional .text source]
  | .unknown label => .fields [("unknown", .text label)]

def replies : List Answer → List Document
  | [] => []
  | answer :: rest => reply answer :: replies rest

end

end PubSub.Script
