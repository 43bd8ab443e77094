/-!
# Events, the types they are known by, and what a handler receives

Types are told apart by what they are, not by their names: two event types may share a name.
-/
namespace PubSub

/-- An event embeds events of other types only if their types have a lower rank. -/
structure EventType where
  label : String
  name : String
  rank : Nat
deriving DecidableEq

/-- A type that a handler can ask for. -/
inductive Topic where
  | event (type : EventType)
  /-- An interface that every event offers. -/
  | interface (label name : String)
  /-- The type that every event is assignable to. -/
  | root
  /-- A piece of text inside an event. -/
  | text (label name : String)
  /-- A number inside an event. -/
  | number (label name : String)
deriving DecidableEq

namespace Topic

def label : Topic → String
  | .event type => type.label
  | .interface label _ => label
  | .root => "Any"
  | .text label _ => label
  | .number label _ => label

def name : Topic → String
  | .event type => type.name
  | .interface _ name => name
  | .root => "dyn typebus::events::event::Event"
  | .text _ name => name
  | .number _ name => name

end Topic

structure Event where
  type : EventType
  number : Int64
  text : String
deriving DecidableEq

namespace Event

def describe (e : Event) : String :=
  e.type.label ++ "(" ++ toString e.number.toInt ++ "," ++ e.text ++ ")"

/-- The event of type `parent` that `e` embeds. -/
def part (e : Event) (parent : EventType) : Event :=
  ⟨parent, e.number, e.text ++ "/" ++ parent.label⟩

/-- `e` itself where it already has the wanted type, else its part of that type. -/
def view (e : Event) (type : EventType) : Event := if e.type = type then e else e.part type

theorem type_view (e : Event) (type : EventType) : (e.view type).type = type := by
  unfold view
  split
  · assumption
  · rfl

end Event

/-- The object behind the reference that a handler is given. -/
inductive Object where
  | event (e : Event)
  | text (s : String)
  | number (n : Int64)
deriving DecidableEq

namespace Object

def describe : Object → String
  | .event e => e.describe
  | .text s => s
  | .number n => toString n.toInt

/-- Text counts as zero. -/
def amount : Object → Int64
  | .event e => e.number
  | .text _ => 0
  | .number n => n

/-- The objects that a handler of each type can be given. -/
def Fits : Object → Topic → Prop
  | .event e, .event type => e.type = type
  | .event _, .interface _ _ => True
  | .event _, .root => True
  | .text _, .text _ _ => True
  | .number _, .number _ _ => True
  | _, _ => False

end Object

/-- What an event offers to a handler of type `topic`. -/
def Event.offer (e : Event) : Topic → Object
  | .event type => .event (e.view type)
  | .interface _ _ => .event e
  | .root => .event e
  | .text _ _ => .text e.text
  | .number _ _ => .number e.number

theorem Event.offer_fits (e : Event) (topic : Topic) : (e.offer topic).Fits topic := by
  cases topic <;> simp [offer, Object.Fits, type_view]

end PubSub
