import PubSub.Event

/-!
# Assignability tables

An event type declares the types that its events are assignable to: single types, and parents from
which it takes everything that they are assignable to. A table lists these types in dispatch order,
each with the route by which an event reaches a handler of that type. Of two entries for one type
the first is kept.
-/
namespace PubSub

/-- A way from an event to an object that handlers of type `target` accept. -/
structure Cast (target : Topic) where
  apply : Event → Object
  fits : ∀ event, (apply event).Fits target

/-- A way from an event to an event of type `parent` inside it. -/
structure Embedding (parent : EventType) where
  apply : Event → Event
  type_apply : ∀ event, (apply event).type = parent

/-- The part of an event that a cast starts from: the event itself unless a type is named. -/
def Event.start (e : Event) : Option EventType → Event
  | none => e
  | some via => e.view via

def Cast.through (via : Option EventType) (target : Topic) : Cast target where
  apply e := (e.start via).offer target
  fits _ := Event.offer_fits _ _

def Embedding.through (via : Option EventType) (parent : EventType) : Embedding parent where
  apply e := (e.start via).view parent
  type_apply _ := Event.type_view _ _

/-- One step of the declaration of `type`. Parents have a lower rank, so declarations end. -/
inductive Widening (type : EventType) where
  | to (target : Topic) (cast : Cast target)
  | inherit (parent : EventType) (lower : parent.rank < type.rank) (embedding : Embedding parent)

/-- What every event type declares at one moment. -/
structure Declarations where
  of : (type : EventType) → List (Widening type)

namespace Declarations

/-- No type declares anything. -/
def silent : Declarations := ⟨fun _ => []⟩

def set (d : Declarations) (type : EventType) (steps : List (Widening type)) : Declarations where
  of t := if h : t = type then h ▸ steps else d.of t

end Declarations

/-- The way of an event to a handler: a cast, after parents have been entered one by one. -/
inductive Route where
  | cast (source : EventType) (target : Topic) (cast : Cast target)
  | enter (source parent : EventType) (embedding : Embedding parent) (rest : Route)

namespace Route

/-- The object that a handler of type `topic` receives, or nothing if the route starts at another
event type or ends at another type. -/
def follow : Route → Event → Topic → Option Object
  | .cast source target c, e, topic =>
    if e.type = source ∧ topic = target then some (c.apply e) else none
  | .enter source _ embedding rest, e, topic =>
    if e.type = source then rest.follow (embedding.apply e) topic else none

end Route

abbrev Table := List (Topic × Route)

namespace Table

def topics (table : Table) : List Topic := table.map Prod.fst

/-- Adds an entry at the end unless its type is already present. -/
def add (table : Table) (topic : Topic) (route : Route) : Table :=
  if table.topics.contains topic then table else table ++ [(topic, route)]

/-- An event is assignable to its own type without change. -/
def itself (type : EventType) : Topic × Route :=
  (.event type, .cast type (.event type) (Cast.through none (.event type)))

def rootEntry (type : EventType) : Topic × Route :=
  (.root, .cast type .root (Cast.through none .root))

end Table

namespace Declarations

/-- The type itself, then what it declares, for types of a rank below `bound`. -/
def collectedBelow (d : Declarations) :
    (bound : Nat) → (type : EventType) → type.rank < bound → Table
  | bound + 1, type, below =>
    (d.of type).foldl (fun table step =>
      match step with
      | .to target cast => table.add target (.cast type target cast)
      | .inherit parent lower embedding =>
        (d.collectedBelow bound parent (by omega)).foldl (fun table entry =>
          table.add entry.1 (.enter type parent embedding entry.2)) table)
      [Table.itself type]

/-- The type itself and what it declares, without the root unless declared. -/
def collected (d : Declarations) (type : EventType) : Table :=
  d.collectedBelow (type.rank + 1) type (Nat.lt_succ_self _)

/-- The table that a bus uses: the root is added at the end unless it is declared. -/
def table (d : Declarations) (type : EventType) : Table :=
  (d.collected type).add (Table.rootEntry type).1 (Table.rootEntry type).2

/-- The declarations that a computation of the table runs, in the order in which they end, each
with the types that it collected. A parent's declaration runs once for each step that names it. -/
def runsBelow (d : Declarations) :
    (bound : Nat) → (type : EventType) → type.rank < bound → List (EventType × List Topic)
  | bound + 1, type, below =>
    ((d.of type).flatMap fun step =>
      match step with
      | .to _ _ => []
      | .inherit parent lower _ => d.runsBelow bound parent (by omega))
    ++ [(type, (d.collected type).topics)]

def runs (d : Declarations) (type : EventType) : List (EventType × List Topic) :=
  d.runsBelow (type.rank + 1) type (Nat.lt_succ_self _)

end Declarations

end PubSub
