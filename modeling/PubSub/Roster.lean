import PubSub.Keyed
import PubSub.Subscriber

/-!
# Rosters

The roster of a bus finds subscriptions by the type they are declared for, in registration order,
and by their owner, in declaration order. A type without subscriptions is not present.
-/
namespace PubSub

structure Roster where
  byTopic : Keyed Topic (List Subscription)
  byOwner : Keyed SubscriberId (List Subscription)

namespace Roster

def empty : Roster := ⟨.empty, .empty⟩

instance : Inhabited Roster := ⟨empty⟩

/-- The subscriptions declared for exactly this type. -/
def on (r : Roster) (topic : Topic) : List Subscription := (r.byTopic.get? topic).getD []

def contains (r : Roster) (owner : SubscriberId) : Bool := r.byOwner.contains owner

/-- The number of owners. -/
def size (r : Roster) : Nat := r.byOwner.size

/-- The types that have subscriptions, sorted by name. -/
def topics (r : Roster) : List Topic :=
  r.byTopic.keys.mergeSort fun a b => decide (a.name ≤ b.name)

def addByTopic (found : Keyed Topic (List Subscription)) (s : Subscription) :
    Keyed Topic (List Subscription) :=
  found.insert s.topic ((found.get? s.topic).getD [] ++ [s])

def dropByTopic (found : Keyed Topic (List Subscription)) (s : Subscription) :
    Keyed Topic (List Subscription) :=
  match found.get? s.topic with
  | none => found
  | some present =>
    match present.filter (·.id ≠ s.id) with
    | [] => found.erase s.topic
    | kept => found.insert s.topic kept

/-- Adds all subscriptions of an owner, or nothing if the owner is already present. -/
def enrol (r : Roster) (owner : SubscriberId) (added : List Subscription) : Option Roster :=
  if r.contains owner then none
  else some ⟨added.foldl addByTopic r.byTopic, r.byOwner.insert owner added⟩

/-- Removes an owner together with its subscriptions, which are returned. -/
def dismiss (r : Roster) (owner : SubscriberId) : Option (List Subscription × Roster) :=
  (r.byOwner.get? owner).map fun removed =>
    (removed, ⟨removed.foldl dropByTopic r.byTopic, r.byOwner.erase owner⟩)

end Roster

end PubSub
