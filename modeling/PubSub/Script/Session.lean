import PubSub.Call
import PubSub.Script.Operation

/-!
# The memory of a script

What the labels of a script stand for, the scripted code behind callbacks with the number of calls
so far, and the gauges of the probe groups.
-/
namespace PubSub.Script

/-- The code of a handler, an observer or a job. -/
structure Code where
  probe : Option Probe
  actions : List Action
  calls : Nat

/-- How many handlers are inside the probe of a group, and the most that have been at once. -/
structure Gauge where
  inside : Nat
  peak : Nat

/-- A bus and, if it has one, the executor that it keeps alive. -/
structure BusHandle where
  bus : BusId
  executor : Option ExecutorId
deriving DecidableEq

/-- A post from a thread of its own, and what it has answered. -/
structure Posting where
  bus : String
  event : Event
  answer : Answer

structure Session where
  subscribers : Keyed String Subscriber
  observers : Keyed String Observer
  buses : Keyed String BusHandle
  executors : Keyed String ExecutorId
  /-- The executors that operations under way keep alive, once for each operation. -/
  held : List ExecutorId
  codes : Keyed CodeId Code
  postings : Keyed CodeId Posting
  gauges : Keyed String Gauge
  /-- The next serial for callbacks and owners. -/
  next : Nat

namespace Session

def empty : Session := ⟨.empty, .empty, .empty, .empty, [], .empty, .empty, .empty, 0⟩

def addCode (s : Session) (probe : Option Probe) (actions : List Action) : CodeId × Session :=
  let id : CodeId := ⟨s.next⟩
  (id, { s with codes := s.codes.insert id ⟨probe, actions, 0⟩, next := s.next + 1 })

def addPosting (s : Session) (bus : String) (event : Event) : CodeId × Session :=
  let id : CodeId := ⟨s.next⟩
  (id, { s with postings := s.postings.insert id ⟨bus, event, .done⟩, next := s.next + 1 })

def setAnswer (s : Session) (body : CodeId) (posting : Posting) (answer : Answer) : Session :=
  { s with postings := s.postings.insert body { posting with answer } }

/-- Takes the answer of a post that has ended. -/
def takeAnswer (s : Session) (body : CodeId) : Answer × Session :=
  (((s.postings.get? body).map Posting.answer).getD .done,
    { s with postings := s.postings.erase body })

def addHandlers (s : Session) : List HandlerText → List Handler × Session
  | [] => ([], s)
  | .mk name concurrent parameters probe actions :: rest =>
    let (body, s) := s.addCode probe actions
    let (handlers, s) := s.addHandlers rest
    (⟨name, concurrent, parameters, body⟩ :: handlers, s)

/-- An object that does not name itself is known by the name of its type. -/
def shownSubscriber (name : Option String) : String := name.getD "driver::AnonSub"

def addSubscriber (s : Session) (label : String) (name : Option String)
    (handlers : List HandlerText) : Session :=
  let owner : SubscriberId := ⟨label, s.next⟩
  let (handlers, s) := { s with next := s.next + 1 }.addHandlers handlers
  { s with subscribers := s.subscribers.insert label ⟨owner, shownSubscriber name, handlers⟩ }

/-- Changes what an object presents from now on. -/
def redefine (s : Session) (old : Subscriber) (label : String) (name : Option (Option String))
    (handlers : Option (List HandlerText)) : Session :=
  let shown := match name with
    | none => old.name
    | some name => shownSubscriber name
  let (handlers, s) := match handlers with
    | none => (old.handlers, s)
    | some handlers => s.addHandlers handlers
  { s with subscribers := s.subscribers.insert label ⟨old.owner, shown, handlers⟩ }

def addObserver (s : Session) (label : String) (anonymous : Bool) (actions : List Action) :
    Session :=
  let (body, s) := s.addCode none actions
  let name := if anonymous then "driver::AnonObs" else label
  { s with observers := s.observers.insert label (.custom label name body) }

/-- One more call of some code. -/
def countCall (s : Session) (body : CodeId) : Session :=
  match s.codes.get? body with
  | none => s
  | some code => { s with codes := s.codes.insert body { code with calls := code.calls + 1 } }

def gauge (s : Session) (group : String) : Gauge := (s.gauges.get? group).getD ⟨0, 0⟩

def enter (s : Session) (group : String) : Session :=
  let g := s.gauge group
  { s with gauges := s.gauges.insert group ⟨g.inside + 1, max g.peak (g.inside + 1)⟩ }

def leave (s : Session) (group : String) : Session :=
  let g := s.gauge group
  { s with gauges := s.gauges.insert group ⟨g.inside - 1, g.peak⟩ }

def peaks (s : Session) : List (String × Nat) := s.gauges.pairs.map fun p => (p.1, p.2.peak)

/-- Whether a label, a bus with a label or an operation under way keeps an executor alive. -/
def keeps (s : Session) (e : ExecutorId) : Bool :=
  s.executors.values.contains e || s.buses.values.any (·.executor = some e) || s.held.contains e

/-- Finds a bus for an operation, which keeps the executor of the bus alive. -/
def holdBus (s : Session) (label : String) : Option BusHandle × Session :=
  match s.buses.get? label with
  | none => (none, s)
  | some handle => (some handle, { s with held := handle.executor.toList ++ s.held })

/-- Finds an executor for an operation, which keeps it alive. -/
def holdExecutor (s : Session) (label : String) : Option ExecutorId × Session :=
  match s.executors.get? label with
  | none => (none, s)
  | some e => (some e, { s with held := e :: s.held })

/-- Ends one hold of an executor; answers the executor if nothing keeps it alive any more. -/
def letGo (s : Session) (e : ExecutorId) : Option ExecutorId × Session :=
  let s := { s with held := s.held.erase e }
  (if s.keeps e then none else some e, s)

/-- Lets a label stand for another bus, or for none; answers the executor that was kept alive only
by the bus it stood for. -/
def rebindBus (s : Session) (label : String)
    (f : Keyed String BusHandle → Keyed String BusHandle) : Option ExecutorId × Session :=
  let old := (s.buses.get? label).bind BusHandle.executor
  let s := { s with buses := f s.buses }
  (old.filter (!s.keeps ·), s)

/-- The observers behind labels; `LogWriter` stands for one more log. -/
def observersOf (s : Session) (labels : List String) : List Observer :=
  labels.filterMap fun label =>
    if label = Observer.log.name then some .log else s.observers.get? label

/-- The configuration that a script describes. -/
def settings (s : Session) (setup : BusSetup) : BusSettings :=
  let standard := BusSettings.standard
  match setup.style with
  | .standard => standard
  | .builder =>
    { identifier := setup.identifier.getD standard.identifier
      policy := setup.policy.getD standard.policy
      observers := s.observersOf (setup.observers ++ setup.moreObservers) }
  | .fields =>
    { identifier := setup.identifier.getD standard.identifier
      policy := setup.policy.getD standard.policy
      observers := s.observersOf setup.observers }
  | .named =>
    { identifier := setup.identifier.getD ""
      policy := setup.policy.getD standard.policy
      observers := s.observersOf setup.observers }

end Session

end PubSub.Script
