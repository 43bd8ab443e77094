import PubSub.Script.Session

/-!
# Acts of a script

Programs over calls that the operations of a script are made of. An operation that looks up a bus
or an executor keeps the executor alive until it ends; whoever lets go of an executor as the last
takes it, and the jobs that it still holds, with it.
-/
namespace PubSub.Script

abbrev Act (α : Type) := Body Session α

namespace Act

def call (c : Call Session) : Act c.Reply := Program.ask c

def readSession : Act Session := call (.memory id)

def change (f : Session → Session) : Act Unit := do
  let _ ← call (.memory f)

/-- Changes the memory and answers something about the change. -/
def changeWith {α : Type} (f : Session → α × Session) : Act α := do
  let s ← call (.memory fun s => (f s).2)
  return (f s).1

def readBus (b : BusId) : Act BusView := call (.readBus b)

def readExecutor (e : ExecutorId) : Act ExecutorView := call (.readExecutor e)

def withSubscriber (label : String) (f : Subscriber → Act Answer) : Act Answer := do
  let s ← readSession
  match s.subscribers.get? label with
  | some subscriber => f subscriber
  | none => return .unknown label

def repeated (times : Nat) (a : Act Unit) : Act Unit :=
  Program.forEach (List.range times) fun _ => a

/-- An executor that nothing keeps alive goes away, and with it the jobs that it still holds. -/
def abandon : Option ExecutorId → Act Unit
  | none => return ()
  | some e => do
    let executor ← readExecutor e
    match executor.kind with
    | .manual => repeated executor.pending (call (.dropAt e 0))
    | .pool => call (.shutdown e)
    | .runtime => return ()

/-- Ends the holds of an operation. The last of them takes the executor with it. -/
def letGo (executors : List ExecutorId) : Act Unit :=
  Program.forEach executors fun e => do
    let lost ← changeWith (·.letGo e)
    abandon lost

/-- Performs an operation on a bus, whose executor stays alive until the operation has ended. -/
def withHandle (label : String) (f : BusHandle → Act Answer) : Act Answer := do
  let found ← changeWith (·.holdBus label)
  match found with
  | none => return .unknown label
  | some handle =>
    let answer ← f handle
    letGo handle.executor.toList
    return answer

def withBus (label : String) (f : BusId → Act Answer) : Act Answer :=
  withHandle label fun handle => f handle.bus

def withExecutor (label : String) (f : ExecutorId → Act Answer) : Act Answer := do
  let found ← changeWith (·.holdExecutor label)
  match found with
  | none => return .unknown label
  | some e =>
    let answer ← f e
    letGo [e]
    return answer

def rebindBus (label : String) (f : Keyed String BusHandle → Keyed String BusHandle) :
    Act Unit := do
  let lost ← changeWith (·.rebindBus label f)
  abandon lost

/-- Lets a label stand for another executor, or for none. A runtime belongs to its label and stops;
any other executor goes away if nothing else keeps it alive. -/
def rebindExecutor (label : String) (f : Keyed String ExecutorId → Keyed String ExecutorId) :
    Act Unit := do
  let (old, lost) ← changeWith fun s =>
    let changed := { s with executors := f s.executors }
    let old := s.executors.get? label
    ((old, old.filter (!changed.keeps ·)), changed)
  match old with
  | none => return ()
  | some e =>
    let executor ← readExecutor e
    match executor.kind with
    | .runtime => call (.shutdown e)
    | _ => abandon lost

def busOutline (bus : BusView) : Act Text.Outline := do
  let identifier : String × Text.Outline := ("identifier", .quote bus.identifier)
  let subscribers : String × Text.Outline := ("subscribers", .word (toString bus.roster.size))
  match bus.discipline with
  | .publisher => return .record "EventBus" [identifier, subscribers] false
  | .executor e =>
    let executor ← readExecutor e
    return .record "AsyncEventBus"
      [identifier, ("executor", .quote executor.name), subscribers] false

def postTo (label : String) (event : Event) : Act Answer :=
  withBus label fun b => do
    let outcome ← call (.post b event)
    return .ofOutcome outcome

/-- Starts a thread that posts an event. -/
def startPost (label : String) (event : Event) : Act (CodeId × Nat) := do
  let body ← changeWith (·.addPosting label event)
  let task ← call (.startTask body)
  return (body, task)

/-- Waits for a thread that posts an event. -/
def finishPost (started : CodeId × Nat) : Act Answer := do
  call (.joinTask started.2)
  changeWith (·.takeAnswer started.1)

def startPosts (received : Int64) : List (String × EventText) → Act (List (CodeId × Nat))
  | [] => return []
  | (label, event) :: rest => do
    let started ← startPost label (event.event received)
    let others ← startPosts received rest
    return started :: others

def finishPosts : List (CodeId × Nat) → Act (List Answer)
  | [] => return []
  | started :: rest => do
    let answer ← finishPost started
    let answers ← finishPosts rest
    return answer :: answers

/-- Hands scripted work to an executor. -/
def submitWork (e : ExecutorId) (label : String) (actions : List Action) : Act Answer := do
  let body ← changeWith fun s => s.addCode none actions
  let accepted ← call (.submit e label body)
  return .ofExcept accepted

/-- A job of a burst panics if its label says so. -/
def burstActions (label : String) : List Action :=
  if label.startsWith "panic" then [.raise none (.literal "burst job")] else []

def submitEach (e : ExecutorId) : List String → Act (List Answer)
  | [] => return []
  | label :: rest => do
    let answer ← submitWork e label (burstActions label)
    let answers ← submitEach e rest
    return answer :: answers

def findSubscription (p : SubscriptionPlace) : Act (Option Subscription) := do
  let s ← readSession
  match s.buses.get? p.bus with
  | none => return none
  | some handle =>
    let bus ← readBus handle.bus
    return (bus.roster.on p.topic)[p.place]?

end Act

end PubSub.Script
