import PubSub.Proofs.Course
import PubSub.Proofs.Paths

/-!
# What a handler's panic leaves to do

While the body of a handler runs, the thread still has to end the call, the post or the job that the
call belongs to, and whatever waits for that post: the body of another handler, and its call, and so on.
-/
namespace PubSub

open Program Proc

variable {μ α γ δ : Type}

/-- Performing these steps one after another, with these replies, a program comes to where this is left
of it. -/
inductive Proc.Comes : Proc μ γ → List (Deed μ) → Proc μ γ → Prop where
  | here (p : Proc μ γ) : Comes p [] p
  | step {s : Step μ} {next : s.Reply → Proc μ γ} {reply : s.Reply} {deeds : List (Deed μ)}
      {left : Proc μ γ} (rest : Comes (next reply) deeds left) :
      Comes (.step s next) (.step s reply :: deeds) left

namespace Proc

variable {p left : Proc μ γ} {deeds later : List (Deed μ)}

theorem Comes.trans {q : Proc μ γ} (h : Comes p deeds left) (h' : Comes left later q) :
    Comes p (deeds ++ later) q := by
  induction h with
  | here => exact h'
  | step _ ih => exact .step (ih h')

theorem Comes.ends (h : Comes p deeds left) {a : γ} (h' : Ends left later a) :
    Ends p (deeds ++ later) a := by
  induction h with
  | here => exact h'
  | step _ ih => exact .step (ih h')

theorem Comes.bind (h : Comes p deeds left) (f : γ → Proc μ δ) :
    Comes (p.bind f) deeds (left.bind f) := by
  induction h with
  | here => exact .here _
  | step _ ih => exact .step ih

theorem Ends.comes_bind {a : γ} (h : Ends p deeds a) (f : γ → Proc μ δ) :
    Comes (p.bind f) deeds (f a) := by
  induction h with
  | done a => exact .here _
  | step _ ih => exact .step ih

end Proc

/-- Whatever it learns, the program ends with this answer if it ends. -/
def Program.Only {σ : Type} {Reply : σ → Type} (a : α) : Program Reply α → Prop
  | .done b => b = a
  | .never => True
  | .step _ next => ∀ reply, Only a (next reply)

theorem Program.Only.of_ends {body : Body μ γ} {meaning : (c : Call μ) → Proc μ c.Reply} {a b : γ}
    {deeds : List (Deed μ)} (h : body.Only a) (hends : Ends (body.expand meaning) deeds b) : b = a := by
  induction body generalizing deeds with
  | done c => exact (ends_done hends).2.trans h
  | never => cases hends
  | step c next ih =>
    obtain ⟨reply, _, rest, -, hrest, -⟩ := ends_bind hends
    exact ih reply (h reply) hrest

/-- A handler while it is called, with the lock that its thread holds if it is exclusive. -/
structure HandlerCall where
  delivery : Delivery
  lock : LockId

namespace HandlerCall

variable (c : HandlerCall) (t : Thread)

def invocation : Invocation := c.delivery.invocation

/-- How the lock is given back. -/
def unlocking (reaction : Reaction) : Proc μ Reaction := do
  release c.invocation.bus c.lock
  unshare c.invocation.bus c.lock
  let bus ← readBus c.invocation.bus
  if bus.roster.contains c.invocation.subscription.id.owner then
    return reaction
  else
    discard c.invocation.bus c.invocation.subscription.id
    return reaction

/-- What is left of the call of a handler whose body has this left to do. -/
def rest (body : Proc μ Reaction) : Proc μ Reaction :=
  let noted := body.bind fun reaction => do
    record t (.ended c.invocation reaction)
    return reaction
  if c.invocation.subscription.concurrent then noted else noted.bind c.unlocking

end HandlerCall

/-- What becomes of a delivery on the publisher's thread, and of those behind it, once its handler has
ended. -/
def goingOn (client : Client μ) (t : Thread) (policy : ErrorPolicy) (failures : List Failure)
    (i : Invocation) (behind : List Delivery) : Reaction → Proc μ Outcome
  | .fine => deliverAll client t policy failures behind
  | .panicked payload => do
    let _ ← tellAll client t i (.panicked payload.message)
    return .panicked payload
  | .failed error => do
    let failure ← tellAll client t i (.error error)
    match policy with
    | .propagate => return .failed (.handlerFailed failure)
    | .collect => deliverAll client t policy (failures ++ [failure]) behind

/-- What becomes of a job once the handler has ended. -/
def settlingDelivery (client : Client μ) (t : Thread) (i : Invocation) :
    Reaction → Proc μ (Option Payload)
  | .fine => do
    record t (.settled i)
    return none
  | .failed error => do
    let _ ← tellAll client t i (.error error)
    record t (.settled i)
    return none
  | .panicked payload => do
    let _ ← tellAll client t i (.panicked payload.message)
    record t (.settled i)
    return none

/-- What is left of the job of a delivery while its handler is called. -/
def HandlerCall.restOfJob (client : Client μ) (t : Thread) (c : HandlerCall) (body : Proc μ Reaction) :
    Proc μ (Option Payload) :=
  (c.rest t body).bind (settlingDelivery client t c.invocation)

/-- A post while one of its handlers is called: with the failures that it has collected by then, and
the deliveries that it has not come to. -/
structure PostCall extends HandlerCall where
  policy : ErrorPolicy
  failures : List Failure
  behind : List Delivery

/-- What is left of the post. -/
def PostCall.restOfPost (client : Client μ) (t : Thread) (f : PostCall) (body : Proc μ Reaction) :
    Proc μ Outcome :=
  ((f.rest t body).bind (goingOn client t f.policy f.failures f.invocation f.behind)).bind
    fun outcome => do
      record t (.answered f.invocation.post outcome)
      return outcome

/-- A post that the body of a handler has made, and how the body goes on. -/
structure Layer (μ : Type) extends PostCall where
  resume : Outcome → Body μ Reaction

/-- Through posts nested in one another, the innermost first, what is left of the body of the outermost
handler while the innermost one has this left to do. -/
def climb (β : Behaviour μ) (t : Thread) : (n : Nat) → List (Layer μ) → Proc μ Reaction →
    Proc μ Reaction
  | _, [], body => body
  | n, l :: layers, body =>
    climb β t (n + 1) layers ((l.restOfPost (β.client (β.perform n t)) t body).bind fun outcome =>
      (l.resume outcome).expand (β.perform (n + 1) t))

section Contexts

variable (client : Client μ) (t : Thread) (c : HandlerCall) (p : PostCall) (body : Proc μ Reaction)

theorem HandlerCall.rest_eq_bind : c.rest t body = body.bind fun r => c.rest t (.done r) := by
  unfold HandlerCall.rest
  split
  · rfl
  · exact bind_assoc ..

theorem HandlerCall.restOfJob_eq_bind :
    c.restOfJob client t body = body.bind fun r => c.restOfJob client t (.done r) := by
  rw [restOfJob, c.rest_eq_bind, bind_assoc]
  rfl

theorem PostCall.restOfPost_eq_bind :
    p.restOfPost client t body = body.bind fun r => p.restOfPost client t (.done r) := by
  rw [restOfPost, p.rest_eq_bind, bind_assoc, bind_assoc]
  congr 1
  funext r
  rw [restOfPost, bind_assoc]

theorem climb_eq_bind (β : Behaviour μ) (n : Nat) (layers : List (Layer μ)) :
    climb β t n layers body = body.bind fun r => climb β t n layers (.done r) := by
  induction layers generalizing n body with
  | nil => exact (bind_done body).symm
  | cons l layers ih =>
    rw [climb, ih, l.restOfPost_eq_bind, bind_assoc, bind_assoc]
    congr 1
    funext r
    rw [← bind_assoc]
    exact (ih _ _).symm

end Contexts

section Coverage

variable {client : Client μ} {t : Thread} {d : Delivery} {body : Proc μ Reaction}
  {deeds : List (Deed μ)} {behind : List Delivery} {policy : ErrorPolicy} {failures : List Failure}

theorem deliverAll_cons (client : Client μ) (t : Thread) (policy : ErrorPolicy)
    (failures : List Failure) (d : Delivery) (behind : List Delivery) :
    deliverAll client t policy failures (d :: behind) =
      (runHandler client t d).bind (goingOn client t policy failures d.invocation behind) := rfl

theorem runJob_delivery (client : Client μ) (t : Thread) (d : Delivery) (executor : String) :
    runJob client t (.delivery d executor) =
      (runHandler client t d).bind (settlingDelivery client t d.invocation) := by
  rw [runJob]
  congr 1

/-- What a thread does before it comes to the body of a handler. -/
def HandlerCall.opening (c : HandlerCall) (t : Thread) (object : Object) : List (Deed μ) :=
  (if c.invocation.subscription.concurrent then []
    else [.step (.share c.invocation.bus c.invocation.subscription.id) c.lock,
      .step (.acquire c.invocation.bus c.lock t) ()]) ++
        [.step (.record t (.called c.invocation object)) ()]

/-- A thread that runs a handler comes to its body. -/
theorem comes_runHandler {object : Object} (lock : LockId)
    (hobject : d.route.follow d.invocation.event d.invocation.subscription.topic = some object) :
    Comes (runHandler client t d) (HandlerCall.opening ⟨d, lock⟩ t object)
      (HandlerCall.rest ⟨d, lock⟩ t (client.handle d.invocation.subscription.body object)) := by
  rw [runHandler, exclusively, HandlerCall.opening, HandlerCall.rest, hobject]
  cases hconcurrent : d.invocation.subscription.concurrent with
  | true =>
    simp only [HandlerCall.invocation, hconcurrent, if_true]
    exact .step (.here _)
  | false =>
    simp only [HandlerCall.invocation, hconcurrent, if_false, Bool.false_eq_true]
    exact .step (.step (.step (.here _)))

/-- So does a thread that runs the job of a delivery. -/
theorem comes_runJob {object : Object} (lock : LockId) (executor : String)
    (hobject : d.route.follow d.invocation.event d.invocation.subscription.topic = some object) :
    Comes (runJob client t (.delivery d executor)) (HandlerCall.opening ⟨d, lock⟩ t object)
      (HandlerCall.restOfJob client t ⟨d, lock⟩
        (client.handle d.invocation.subscription.body object)) := by
  rw [runJob_delivery]
  exact (comes_runHandler lock hobject).bind _

/-- On the publisher's thread a post comes to the body of each handler that it runs. -/
theorem comes_post {b : BusId} {event : Event} {finding earlier : List (Deed μ)} {ds : List Delivery}
    {bus : Bus} {object : Object} (lock : LockId)
    (hfinds : Ends (selecting t b event) finding (d.invocation.post, ds, bus))
    (hpublisher : bus.discipline = .publisher)
    (hearlier : Comes (deliverAll client t bus.settings.policy [] ds) earlier
      (deliverAll client t policy failures (d :: behind)))
    (hobject : d.route.follow d.invocation.event d.invocation.subscription.topic = some object) :
    Comes (post client t b event) (finding ++ (earlier ++ HandlerCall.opening ⟨d, lock⟩ t object))
      (PostCall.restOfPost client t ⟨⟨d, lock⟩, policy, failures, behind⟩
        (client.handle d.invocation.subscription.body object)) := by
  rw [post_eq]
  refine (hfinds.comes_bind _).trans ?_
  simp only [delivering, hpublisher]
  refine (hearlier.bind _).trans ?_
  rw [deliverAll_cons]
  exact ((comes_runHandler lock hobject).bind _).bind _

/-- So does a post that is made in the body of a handler. -/
theorem comes_nested {β : Behaviour μ} {n : Nat} {b : BusId} {event : Event} (l : Layer μ)
    (layers : List (Layer μ))
    (h : Comes (β.perform (n + 1) t (.post b event)) deeds
      (l.restOfPost (β.client (β.perform n t)) t body)) :
    Comes (climb β t (n + 1) layers
        ((Program.step (.post b event) l.resume : Body μ Reaction).expand (β.perform (n + 1) t)))
      deeds (climb β t n (l :: layers) body) := by
  have hmade := h.bind fun outcome => (l.resume outcome).expand (β.perform (n + 1) t)
  rw [climb_eq_bind, climb, climb_eq_bind t _ β (n + 1)]
  exact hmade.bind _

end Coverage

def Deed.step? : Deed μ → Option (Step μ)
  | .step s _ => some s
  | _ => none

/-- How the lock is given back, if there is one. -/
def HandlerCall.unlockingSteps (c : HandlerCall) : List (Step μ) :=
  if c.invocation.subscription.concurrent then []
  else [.release c.invocation.bus c.lock, .unshare c.invocation.bus c.lock]

section Panic

variable {β : Behaviour μ} {client : Client μ} {t : Thread} {deeds : List (Deed μ)} {payload : Payload}

theorem HandlerCall.ends_rest {c : HandlerCall} {r r' : Reaction}
    (h : Ends (c.rest t (.done r)) deeds r') :
    r' = r ∧ (.record t (.ended c.invocation r) :: c.unlockingSteps).Sublist
      (deeds.filterMap Deed.step?) := by
  unfold HandlerCall.rest at h
  rw [unlockingSteps]
  split at h
  · rename_i hconcurrent
    obtain ⟨_, deeds, rfl, hdone⟩ := ends_ask_bind h
    obtain ⟨rfl, rfl⟩ := ends_done hdone
    rw [if_pos hconcurrent]
    exact ⟨rfl, .refl _⟩
  · rename_i hexclusive
    obtain ⟨_, deeds, rfl, hrelease⟩ := ends_ask_bind h
    obtain ⟨_, deeds, rfl, hunshare⟩ := ends_ask_bind hrelease
    obtain ⟨_, deeds, rfl, hlook⟩ := ends_ask_bind hunshare
    obtain ⟨bus, deeds, rfl, hlast⟩ := ends_ask_bind hlook
    rw [if_neg hexclusive]
    refine ⟨?_, .cons_cons _ (.cons_cons _ (.cons_cons _ (List.nil_sublist _)))⟩
    by_cases hpresent : bus.roster.contains c.invocation.subscription.id.owner = true
    · rw [if_pos hpresent] at hlast
      exact (ends_done hlast).2
    · rw [if_neg hpresent] at hlast
      obtain ⟨_, _, -, hdone⟩ := ends_ask_bind hlast
      exact (ends_done hdone).2

end Panic

end PubSub
