import PubSub.Assignability

/-!
# The types of scripts

Eight event types and the other types that handlers of a script can ask for. Two of the event types
share a name.
-/
namespace PubSub.Script

/-- From the type that embeds all others to the two that embed none. -/
def eventTypes : List EventType :=
  [⟨"A", "driver::ev::Alpha", 6⟩,
   ⟨"B", "driver::ev::Beta", 5⟩,
   ⟨"C", "driver::ev::Beta2", 4⟩,
   ⟨"D", "driver::ev::beta", 3⟩,
   ⟨"E", "driver::ev::sub::Alpha", 2⟩,
   ⟨"F", "driver::ev::Ångström", 1⟩,
   ⟨"P", "driver::ev::twins::Twin", 0⟩,
   ⟨"Q", "driver::ev::twins::Twin", 0⟩]

def otherTopics : List Topic :=
  [.interface "X" "dyn driver::ev::X",
   .interface "Y" "dyn driver::ev::Y",
   .interface "Z" "dyn driver::ev::Z",
   .root,
   .text "String" "alloc::string::String",
   .text "str" "str",
   .number "i64" "i64"]

def eventType? (label : String) : Option EventType := eventTypes.find? (·.label = label)

def topic? (label : String) : Option Topic :=
  (eventTypes.map Topic.event ++ otherTopics).find? (·.label = label)

/-- A parent can be inherited from only if the type embeds it. -/
def inherit? (type parent : EventType) (via : Option EventType) : Option (Widening type) :=
  if lower : parent.rank < type.rank then
    some (.inherit parent lower (.through via parent))
  else none

end PubSub.Script
