import PubSub.Proofs.Lawful
import PubSub.Proofs.TableExpansion

/-!
# The protocol of deliveries

What a thread has in hand at one moment is a stack of frames: posts that it performs and jobs that
it runs, each with the invocation that it deals with just now and how far this has got. The
protocol says which steps fit which frame. Facts about buses that hold from some moment on are
taken from an outlook, which may look ahead.
-/
namespace PubSub

variable {μ : Type}

/-- How far an invocation has got. -/
inductive Phase where
  /-- It has been handed to an executor that has not taken it yet. -/
  | offered
  /-- It is about to run. -/
  | taken
  | running (thread : Thread)
  /-- Its handler has ended, and so many observers have been told. -/
  | ended (reaction : Reaction) (told : Nat)
  | lost (executor : String) (told : Nat)

namespace Phase

/-- What observers are told, if they are told anything. -/
def cause? : Phase → Option Cause
  | .ended (.failed error) _ => some (.error error)
  | .ended (.panicked payload) _ => some (.panicked payload.message)
  | .lost executor _ => some (.abandoned executor)
  | _ => none

def told : Phase → Nat
  | .ended _ told => told
  | .lost _ told => told
  | _ => 0

def withTold : Phase → Nat → Phase
  | .ended r _, told => .ended r told
  | .lost executor _, told => .lost executor told
  | phase, _ => phase

theorem cause?_withTold (phase : Phase) (n : Nat) : (phase.withTold n).cause? = phase.cause? := by
  cases phase with
  | ended r told => cases r <;> rfl
  | _ => rfl

theorem told_withTold {phase : Phase} (h : phase.cause?.isSome) (n : Nat) :
    (phase.withTold n).told = n := by
  cases phase <;> first | rfl | cases h

theorem withTold_withTold (phase : Phase) (n n' : Nat) :
    (phase.withTold n).withTold n' = phase.withTold n' := by
  cases phase <;> rfl

theorem withTold_told (phase : Phase) : phase.withTold phase.told = phase := by
  cases phase <;> rfl

end Phase

/-- An invocation that a thread deals with, and the lock that the thread uses for it: whether it
holds the lock, and as which thread. -/
structure Hand where
  invocation : Invocation
  phase : Phase
  grip : Option (LockId × Option Thread)

namespace Hand

def share (b : BusId) (handler : HandlerKey) (lock : LockId) : Hand → Option Hand
  | ⟨i, .taken, none⟩ =>
    if i.bus = b ∧ i.subscription.id = handler ∧ i.subscription.concurrent = false then
      some ⟨i, .taken, some (lock, none)⟩
    else none
  | _ => none

def acquire (b : BusId) (lock : LockId) (t : Thread) : Hand → Option Hand
  | ⟨i, .taken, some (l, none)⟩ =>
    if i.bus = b ∧ l = lock then some ⟨i, .taken, some (l, some t)⟩ else none
  | _ => none

/-- A handler starts. The thread holds the lock unless invocations may overlap. -/
def call (t : Thread) (i : Invocation) : Hand → Option Hand
  | ⟨i', .taken, none⟩ =>
    if i' = i ∧ i.subscription.concurrent = true then some ⟨i, .running t, none⟩ else none
  | ⟨i', .taken, some (l, some t')⟩ =>
    if i' = i ∧ t' = t then some ⟨i, .running t, some (l, some t)⟩ else none
  | _ => none

def finish (t : Thread) (i : Invocation) (r : Reaction) : Hand → Option Hand
  | ⟨i', .running t', grip⟩ => if i' = i ∧ t' = t then some ⟨i, .ended r 0, grip⟩ else none
  | _ => none

def release (b : BusId) (lock : LockId) : Hand → Option Hand
  | ⟨i, .ended r told, some (l, some _)⟩ =>
    if i.bus = b ∧ l = lock then some ⟨i, .ended r told, some (l, none)⟩ else none
  | _ => none

def unshare (b : BusId) (lock : LockId) : Hand → Option Hand
  | ⟨i, .ended r told, some (l, none)⟩ =>
    if i.bus = b ∧ l = lock then some ⟨i, .ended r told, none⟩ else none
  | _ => none

/-- The next observer is told. -/
def report (i : Invocation) (place : Nat) : Hand → Option Hand
  | ⟨i', .ended r told, none⟩ =>
    if i' = i ∧ place = told then some ⟨i, .ended r (told + 1), none⟩ else none
  | ⟨i', .lost executor told, none⟩ =>
    if i' = i ∧ place = told then some ⟨i, .lost executor (told + 1), none⟩ else none
  | _ => none

end Hand

/-- A post with the invocation that it deals with and those that are still to come, or a job. -/
inductive Frame where
  | post (id : PostId) (hand : Option Hand) (todo : List Invocation)
  | job (hand : Hand)

namespace Frame

def hand? : Frame → Option Hand
  | .post _ hand _ => hand
  | .job hand => some hand

/-- A post that is done with an invocation goes on to the next one, if there is one. -/
def focus : Frame → Frame
  | .post id none (i :: todo) => .post id (some ⟨i, .taken, none⟩) todo
  | .post id (some ⟨_, .ended _ _, none⟩) (i :: todo) => .post id (some ⟨i, .taken, none⟩) todo
  | f => f

def onHand (change : Hand → Option Hand) : Frame → Option (List Frame)
  | .post id (some hand) todo => (change hand).map fun hand => [.post id (some hand) todo]
  | .post _ none _ => none
  | .job hand => (change hand).map fun hand => [.job hand]

def submit (i : Invocation) : Frame → Option (List Frame)
  | .post id none (i' :: todo) =>
    if i' = i then some [.post id (some ⟨i, .offered, none⟩) todo] else none
  | _ => none

/-- An executor answers whether it takes an invocation. -/
def offer (i : Invocation) (accepted : Bool) : Frame → Option (List Frame)
  | .post id (some ⟨i', .offered, none⟩) todo =>
    if i' = i then
      some [.post id (if accepted then none else some ⟨i, .offered, none⟩) todo]
    else none
  | _ => none

/-- An invocation is lost: an executor has refused it, or somebody has taken it only to drop it. -/
def drop (i : Invocation) (executor : String) : Frame → Option (List Frame)
  | .post id (some ⟨i', .offered, none⟩) todo =>
    if i' = i then some [.post id (some ⟨i, .lost executor 0, none⟩) todo] else none
  | .job ⟨i', .taken, none⟩ => if i' = i then some [.job ⟨i, .lost executor 0, none⟩] else none
  | _ => none

/-- A job is over. -/
def settle (i : Invocation) : Frame → Option (List Frame)
  | .post id (some ⟨i', .lost _ _, none⟩) todo =>
    if i' = i then some [.post id none todo] else none
  | .job ⟨i', .ended _ _, none⟩ => if i' = i then some [] else none
  | .job ⟨i', .lost _ _, none⟩ => if i' = i then some [] else none
  | _ => none

/-- A post is over. -/
def answer (id : PostId) : Frame → Option (List Frame)
  | .post id' none _ => if id' = id then some [] else none
  | .post id' (some ⟨_, .ended _ _, none⟩) _ => if id' = id then some [] else none
  | _ => none

end Frame

/-- The frames of a job that a thread has just taken. -/
def Job.frames : Job → List Frame
  | .delivery d _ => [.job ⟨d.invocation, .taken, none⟩]
  | .work _ _ => []

/-- The names that a thread goes by, the serials that it may still use for posts, and what it has in
hand, the latest first. -/
structure Standing where
  names : List Thread
  fresh : List PostId
  stack : List Frame

namespace Standing

def onTop (g : Standing) (change : Frame → Option (List Frame)) : Option Standing :=
  match g.stack with
  | [] => none
  | f :: rest => (change f).map fun frames => { g with stack := frames ++ rest }

def hand? (g : Standing) : Option Hand := g.stack.head?.bind Frame.hand?

/-- The standing after a thread wrote something into the history, if the protocol lets it. -/
def write? (g : Standing) (t : Thread) : Occurrence → Option Standing
  | .selected id invocations =>
    if id ∈ g.fresh ∧ invocations.Nodup ∧ ∀ i ∈ invocations, i.post = id then
      some { g with fresh := g.fresh.erase id, stack := .post id none invocations :: g.stack }
    else none
  | .answered id _ => g.onTop (Frame.answer id)
  | .called i _ => g.onTop fun f => f.focus.onHand (Hand.call t i)
  | .ended i r => g.onTop (Frame.onHand (Hand.finish t i r))
  | .reported i place _ _ => g.onTop (Frame.onHand (Hand.report i place))
  | .submitted i => g.onTop (Frame.submit i)
  | .dropped i executor => g.onTop (Frame.drop i executor)
  | .settled i => g.onTop (Frame.settle i)
  | _ => some g

/-- The standing after a step, if the protocol lets the thread take it. -/
def step? (g : Standing) : (s : Step μ) → s.Reply → Option Standing
  | .serial, n => some { g with names := .started n :: g.names, fresh := n :: g.fresh }
  | .share b handler, lock => g.onTop fun f => f.focus.onHand (Hand.share b handler lock)
  | .acquire b lock t, _ =>
    if t ∈ g.names then g.onTop (Frame.onHand (Hand.acquire b lock t)) else none
  | .release b lock, _ => g.onTop (Frame.onHand (Hand.release b lock))
  | .unshare b lock, _ => g.onTop (Frame.onHand (Hand.unshare b lock))
  | .record t o, _ => g.write? t o
  | .offer _ (.delivery d _), accepted => g.onTop (Frame.offer d.invocation accepted)
  | .send _ (.delivery d _), accepted => g.onTop (Frame.offer d.invocation accepted)
  | .pick _ _, some job => some { g with stack := job.frames ++ g.stack }
  | _, _ => some g

end Standing

/-- What turns out to be true of buses. -/
structure Outlook where
  settings : BusId → BusSettings
  table : BusId → EventType → Table
  enrolled : BusId → Subscription → Prop

/-- All routes take events of the type to an object for their topic. -/
def Table.Carries (table : Table) (type : EventType) : Prop :=
  ∀ entry ∈ table, ∃ object, entry.2.Carries type entry.1 object

namespace Outlook

variable (O : Outlook)

/-- Everyone who is told about a failure on a bus. -/
def observers (b : BusId) : List Observer := .log :: (O.settings b).observers

/-- A delivery of a subscription that was once registered, by the route of the table. -/
structure Fits (d : Delivery) : Prop where
  enrolled : O.enrolled d.invocation.bus d.invocation.subscription
  listed : (d.invocation.subscription.topic, d.route) ∈
    O.table d.invocation.bus d.invocation.event.type
  carries : ∃ object,
    d.route.Carries d.invocation.event.type d.invocation.subscription.topic object

/-- Everyone has been told who has to be. -/
def Complete (hand : Hand) : Prop :=
  hand.phase.told = if hand.phase.cause?.isSome then (O.observers hand.invocation.bus).length else 0

/-- What has to be true of something that a thread writes into the history. -/
def Vouches (g : Standing) : Occurrence → Prop
  | .selected _ invocations => ∀ i ∈ invocations, ∃ route, O.Fits ⟨i, route⟩
  | .answered _ _ => ∀ hand, g.hand? = some hand → O.Complete hand
  | .called i object => (∀ hand, g.hand? = some hand → O.Complete hand) ∧
    ∃ route, O.Fits ⟨i, route⟩ ∧ route.follow i.event i.subscription.topic = some object
  | .reported i place observer failure => ∃ hand cause, g.hand? = some hand ∧
    hand.phase.cause? = some cause ∧ (O.observers i.bus)[place]? = some observer ∧
    failure = i.failure (O.settings i.bus).identifier cause
  | .settled _ => ∃ hand, g.hand? = some hand ∧ O.Complete hand
  | _ => True

def Allows (g : Standing) : Step μ → Prop
  | .share _ _ => ∀ hand, g.hand? = some hand → O.Complete hand
  | .record _ o => O.Vouches g o
  | .keepTable _ type table => table.Carries type
  | .offer _ (.delivery d _) => O.Fits d
  | .send _ (.delivery d _) => O.Fits d
  | .openExecutor x => x.jobs = []
  | _ => True

def Trusts : (s : Step μ) → s.Reply → Prop
  | .readBus b, bus => bus.settings = O.settings b ∧
    (∀ type table, bus.tables.get? type = some table →
      table = O.table b type ∧ table.Carries type) ∧
    ∀ topic, ∀ s ∈ bus.roster.on topic, s.topic = topic ∧ O.enrolled b s
  | .computeTable _ _ type, table => table.Carries type
  | .keepTable b type _, kept => kept = O.table b type ∧ kept.Carries type
  | .pick _ _, some (.delivery d _) => O.Fits d
  | _, _ => True

def TrustsJob : Job → Prop
  | .delivery d _ => O.Fits d
  | .work _ _ => True

/-- The name that a thread goes by from the start. -/
def base : Turn → Standing
  | .caller 0 => ⟨[.main], [], []⟩
  | .worker e i => ⟨[.worker e i], [], []⟩
  | _ => ⟨[], [], []⟩

theorem stack_base (t : Turn) : (base t).stack = [] := by
  unfold base
  split <;> rfl

@[reducible] def protocol : Conduct μ where
  Standing := Standing
  base := base
  allows g s := (∀ reply, (g.step? s reply).isSome) ∧ O.Allows g s
  trusts := O.Trusts
  after g s reply := (g.step? s reply).getD g
  take g job := { g with stack := job.frames ++ g.stack }
  wake t g := { g with names := (match t with | .task n => [.started n] | _ => []) ++ g.names }
  trustsJob := O.TrustsJob
  rests t g := g.stack = [] ∧ ∀ name ∈ (base t).names, name ∈ g.names

end Outlook

end PubSub
