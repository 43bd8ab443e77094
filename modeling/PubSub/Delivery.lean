import PubSub.Bus
import PubSub.Failure

/-!
# Deliveries

A post selects handlers, each with the route that its event takes there, and makes one delivery to
each of them. A delivery is known by its post and its place among the deliveries of that post.
-/
namespace PubSub

/-- One handler that a post has selected. -/
structure Selection where
  subscription : Subscription
  route : Route

/-- The handlers that an event with this table reaches, in dispatch order. -/
def Roster.select (r : Roster) (table : Table) : List Selection :=
  table.flatMap fun entry => (r.on entry.1).map fun s => ⟨s, entry.2⟩

abbrev PostId := Nat

/-- An invocation that a post asks for: of which handler, on which bus, for which event. -/
structure Invocation where
  post : PostId
  place : Nat
  bus : BusId
  subscription : Subscription
  event : Event
deriving DecidableEq

/-- The failure of an invocation on a bus with this identifier. -/
def Invocation.failure (i : Invocation) (identifier : String) (cause : Cause) : Failure :=
  .mk ⟨identifier, i.subscription.subscriber, i.subscription.method, i.event.type.name,
    i.event.describe⟩ cause

namespace Invocation

variable (i : Invocation) (identifier : String) (cause : Cause)

/-- A failure names the bus by its identifier, the handler as it was registered, and the event by its
type and its own description. -/
@[simp] theorem site_failure : (i.failure identifier cause).site =
    ⟨identifier, i.subscription.subscriber, i.subscription.method, i.event.type.name,
      i.event.describe⟩ := rfl

@[simp] theorem cause_failure : (i.failure identifier cause).cause = cause := rfl

theorem message_failure : (i.failure identifier cause).message =
    "handler " ++ i.subscription.subscriber ++ "::" ++ i.subscription.method ++ " failed on "
      ++ i.event.type.name ++ " (bus " ++ identifier ++ "): " ++ cause.message := rfl

/-- Below a failure lies its cause. -/
theorem sources_failure :
    (i.failure identifier cause).sources = cause.message :: cause.sources := rfl

end Invocation

structure Delivery where
  invocation : Invocation
  route : Route

/-- The deliveries of a post, in dispatch order. -/
def deliveries (post : PostId) (b : BusId) (event : Event) (found : List Selection) :
    List Delivery :=
  found.zipIdx.map fun (s, place) => ⟨⟨post, place, b, s.subscription, event⟩, s.route⟩

end PubSub
