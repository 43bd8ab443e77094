import PubSub.Script.Act

/-!
# What scripts mean

Operations as programs over calls, and the behaviour of scripted handlers, observers and jobs.
-/
namespace PubSub.Script

open Act

def compareTopics (a b : Topic) : TopicComparison :=
  { name := a.name
    shown := a.name
    outline := (Text.Outline.wrap "TypeKey" (.quote a.name)).flat
    equal := a = b }

/-- What is known outside of a runtime about the executor of the current one. -/
def outsideRuntime : BusError :=
  .rejected "TokioExecutor"
    "there is no reactor running, must be called from the context of a Tokio 1.x runtime"

/-- Performs an operation for somebody who received the number `received`. -/
def perform (received : Int64) : Operation → Act Answer
  | .declare type steps => do
    call (.declare type steps)
    return .done
  | .observer label anonymous actions => do
    change fun s => s.addObserver label anonymous actions
    return .done
  | .subscriber label name handlers => do
    change fun s => s.addSubscriber label name handlers
    return .done
  | .redefine label name handlers =>
    withSubscriber label fun old => do
      change fun s => s.redefine old label name handlers
      return .done
  | .bus label setup => do
    let s ← readSession
    let settings := s.settings setup
    match setup.executor with
    | none =>
      let b ← call (.openBus settings .publisher)
      rebindBus label (·.insert label ⟨b, none⟩)
      return .done
    | some executor =>
      withExecutor executor fun e => do
        let b ← call (.openBus settings (.executor e))
        rebindBus label (·.insert label ⟨b, some e⟩)
        return .done
  | .clone label copy =>
    withHandle label fun handle => do
      rebindBus copy (·.insert copy handle)
      return .done
  | .dropBus label => do
    rebindBus label (·.erase label)
    return .done
  | .settingsText setup pretty => do
    let s ← readSession
    let outline : Text.Outline := .record "BusBuilder" [("cfg", (s.settings setup).outline)] false
    return .text (outline.render pretty)
  | .busText label pretty =>
    withBus label fun b => do
      let bus ← readBus b
      let outline ← busOutline bus
      return .text (outline.render pretty)
  | .identifier label =>
    withBus label fun b => do
      let bus ← readBus b
      return .text bus.identifier
  | .count label =>
    withBus label fun b => do
      let bus ← readBus b
      return .count bus.roster.size
  | .types label =>
    withBus label fun b => do
      let bus ← readBus b
      return .texts (bus.roster.topics.map Topic.name)
  | .has label type =>
    withBus label fun b => do
      let reached ← call (.reaches b type)
      return .flag reached
  | .assignable label type =>
    withBus label fun b => do
      let keys ← call (.assignable b type)
      return .texts (keys.map Topic.name)
  | .isRegistered label subscriber =>
    withBus label fun b => withSubscriber subscriber fun object => do
      let bus ← readBus b
      return .flag (bus.roster.contains object.owner)
  | .subscriptions label topic form =>
    withBus label fun b => do
      let bus ← readBus b
      let found := bus.roster.on topic
      match form with
      | .rows => return .subscriptions found
      | .outlines pretty => return .texts (found.map fun s => s.outline.render pretty)
  | .sameSubscription a b => do
    let first ← findSubscription a
    let second ← findSubscription b
    match first, second with
    | some x, some y =>
      return .flags [x.id = y.id, x.id = y.id, x.id.owner = y.id.owner, x.topic = y.topic]
    | none, _ => return .unknown a.bus
    | _, none => return .unknown b.bus
  | .register label subscriber =>
    withBus label fun b => withSubscriber subscriber fun object => do
      let result ← call (.register b object)
      return .ofExcept result
  | .unregister label subscriber =>
    withBus label fun b => withSubscriber subscriber fun object => do
      let result ← call (.unregister b object.owner object.name)
      return .ofExcept result
  | .post label event elsewhere =>
    if elsewhere then do
      let started ← startPost label (event.event received)
      finishPost started
    else
      postTo label (event.event received)
  | .storm posts => do
    let started ← startPosts received posts
    let answers ← finishPosts started
    call .rest
    let s ← readSession
    return .storm s.peaks answers
  | .manual label setup => do
    let shown := if setup.anonymous then "driver::AnonExec" else setup.name
    let rejection := BusError.rejected setup.name setup.reason
    let e ← call (.openManual shown setup.room rejection)
    rebindExecutor label (·.insert label e)
    return .done
  | .accept label room =>
    withExecutor label fun e => do
      call (.setRoom e room)
      return .done
  | .pending label =>
    withExecutor label fun e => do
      let executor ← readExecutor e
      return .count executor.pending
  | .run label place =>
    withExecutor label fun e => do
      call (.runAt e place)
      return .done
  | .drop label place =>
    withExecutor label fun e => do
      call (.dropAt e place)
      return .done
  | .runAll label =>
    withExecutor label fun e => do
      call (.runAll e)
      return .done
  | .pool label settings => do
    let e ← call (.startPool settings)
    rebindExecutor label (·.insert label e)
    let executor ← readExecutor e
    return .pool executor.name (if settings.threads = 0 then none else some settings.threads) false
  | .shutdown label =>
    withExecutor label fun e => do
      call (.shutdown e)
      let executor ← readExecutor e
      return .flag executor.isShutDown
  | .isShutdown label =>
    withExecutor label fun e => do
      let executor ← readExecutor e
      return .flag executor.isShutDown
  | .submit label job actions =>
    withExecutor label fun e => submitWork e job actions
  | .burst label labels drops =>
    withExecutor label fun e => do
      let answers ← submitEach e labels
      if drops then
        rebindExecutor label (·.erase label)
      else
        call (.shutdown e)
      return .each answers
  | .runtime label => do
    let e ← call .startRuntime
    rebindExecutor label (·.insert label e)
    let executor ← readExecutor e
    return .texts [executor.name]
  | .stopRuntime label =>
    withExecutor label fun e => do
      call (.shutdown e)
      return .done
  | .runtimeOutside => return .failed outsideRuntime
  | .compareTopics a b => return .comparison (compareTopics a b)
  | .poolSettings settings pretty =>
    return .poolSettings (if settings.threads = 0 then none else some settings.threads) settings.bound
      (settings.outline.render pretty)
  | .describeError error pretty =>
    return .description error (error.outline?.map fun o => o.render pretty)
  | .describeCause cause => return .cause cause.message cause.sources.head?

/-- Whether an action is performed, given the number received and the number of this call. -/
def Condition.holds (received : Int64) (calls : Nat) : Condition → Bool
  | .above bound => bound < received.toInt
  | .equals number => received.toInt = number
  | .call count => calls = count

def wanted (received : Int64) (calls : Nat) (when? : Option Condition) : Bool :=
  when?.all (·.holds received calls)

/-- Performs actions until one of them ends them all. -/
def performAll (received : Int64) (calls : Nat) : List Action → Act Reaction
  | [] => return .fine
  | .fail when? error :: rest =>
    if wanted received calls when? then return .failed error
    else performAll received calls rest
  | .raise when? payload :: rest =>
    if wanted received calls when? then return .panicked payload
    else performAll received calls rest
  | .perform when? operation pass :: rest =>
    if wanted received calls when? then do
      let answer ← perform received operation
      call (.note operation.name answer)
      match pass, answer with
      | true, .failed error => return .failed (.bus error)
      | true, .panicked payload => return .panicked payload
      | _, _ => performAll received calls rest
    else performAll received calls rest

def meet (p : Probe) : Act Unit := do
  change (·.enter p.group)
  call (.await (fun s => p.wanted ≤ (s.gauge p.group).peak) p.patience)
  change (·.leave p.group)

/-- Runs the code behind a callback and counts the call. -/
def runCode (body : CodeId) (received : Int64) : Act Reaction := do
  let s ← call (.memory (·.countCall body))
  match s.codes.get? body with
  | none => return .fine
  | some code =>
    match code.probe with
    | none => performAll received (code.calls + 1) code.actions
    | some probe => do
      meet probe
      performAll received (code.calls + 1) code.actions

def panicOf : Reaction → Option Payload
  | .panicked payload => some payload
  | _ => none

/-- Posts what a thread was started for, and keeps the answer. -/
def runPosting (body : CodeId) (posting : Posting) : Act Unit := do
  let answer ← postTo posting.bus posting.event
  change (·.setAnswer body posting answer)

/-- How scripted code behaves. Observers and jobs receive no number, and an error of theirs has no
effect. -/
def behaviour : Behaviour Session where
  handle body object := runCode body object.amount
  observe body _ := do
    let reaction ← runCode body 0
    return panicOf reaction
  work body := do
    let s ← readSession
    match s.postings.get? body with
    | some posting => do
      runPosting body posting
      return none
    | none => do
      let reaction ← runCode body 0
      return panicOf reaction

end PubSub.Script
