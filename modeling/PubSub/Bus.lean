import PubSub.Assignability
import PubSub.Locks
import PubSub.Roster

/-!
# Buses

A bus has a fixed configuration and three tables: its subscriptions, the assignability table of
each event type it has met, and the locks of its exclusive handlers.
-/
namespace PubSub

abbrev BusId := Nat

abbrev ExecutorId := Nat

/-- What a post on the publisher's thread does after a handler returned an error. -/
inductive ErrorPolicy where
  /-- Stop and return the failure. -/
  | propagate
  /-- Go on, and return all failures at the end. -/
  | collect
deriving DecidableEq

/-- Code that is told about failures. -/
inductive Observer where
  | log
  | custom (label name : String) (body : CodeId)
deriving DecidableEq

def Observer.name : Observer → String
  | .log => "LogWriter"
  | .custom _ name _ => name

structure BusSettings where
  identifier : String
  policy : ErrorPolicy
  observers : List Observer

namespace BusSettings

def standard : BusSettings := ⟨"default", .propagate, []⟩

def outline (c : BusSettings) : Text.Outline :=
  .record "BusConfig"
    [("identifier", .quote c.identifier),
      ("on_failure", .word (match c.policy with | .propagate => "Propagate" | .collect => "Continue")),
      ("observers", .list (c.observers.map fun o => .quote o.name))] false

end BusSettings

/-- Where a bus runs handlers: on the thread that posts, or as jobs of an executor. -/
inductive Discipline where
  | publisher
  | executor (id : ExecutorId)
deriving DecidableEq

structure Bus where
  settings : BusSettings
  discipline : Discipline
  roster : Roster
  /-- The tables computed so far. A table is never replaced. -/
  tables : Keyed EventType Table
  locks : Locks

namespace Bus

def fresh (settings : BusSettings) (discipline : Discipline) : Bus :=
  ⟨settings, discipline, .empty, .empty, .empty⟩

instance : Inhabited Bus := ⟨fresh .standard .publisher⟩

/-- Everyone who is told about a failure: the log comes first. -/
def observers (b : Bus) : List Observer := .log :: b.settings.observers

/-- Keeps a table unless there is one already, and answers the one that is kept. -/
def keepTable (b : Bus) (type : EventType) (table : Table) : Table × Bus :=
  match b.tables.get? type with
  | some kept => (kept, b)
  | none => (table, { b with tables := b.tables.insert type table })

end Bus

/-- What a bus shows to its clients. -/
structure BusView where
  identifier : String
  discipline : Discipline
  roster : Roster

def Bus.view (b : Bus) : BusView := ⟨b.settings.identifier, b.discipline, b.roster⟩

end PubSub
