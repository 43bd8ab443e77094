import PubSub.Proofs.Upkeep

/-!
# Borrowed senders

A thread puts a job into the queue of an executor only with a sender that it has borrowed there, and
it borrows one only where it has seen that the executor has workers. It gives the sender back before
it does anything else.
-/
namespace PubSub

open Program Conduct

variable {μ α : Type}

/-- The executors that a thread has seen to have workers, and the one whose sender it has. -/
structure Access where
  known : List ExecutorId
  sender : Option ExecutorId

namespace Access

def Allows (g : Access) : Step μ → Prop
  | .borrow e => g.sender = none ∧ e ∈ g.known
  | .send e _ => g.sender = some e
  | .giveBack e => g.sender = some e
  | .openExecutor x => x.IsNew
  | _ => True

def after (g : Access) : (s : Step μ) → s.Reply → Access
  | .readExecutor e, x => if x.pool?.isSome then { g with known := e :: g.known } else g
  | .borrow e, true => { g with sender := some e }
  | .giveBack _, _ => { g with sender := none }
  | _, _ => g

@[reducible] def conduct : Conduct μ where
  Standing := Access
  base _ := ⟨[], none⟩
  allows := Allows
  trusts _ _ := True
  after := after
  take g _ := g
  wake _ g := g
  trustsJob _ := True
  rests _ g := g.sender = none

theorem sender_after_readExecutor (g : Access) (e : ExecutorId) (x : Executor) :
    (g.after (.readExecutor (μ := μ) e) x).sender = g.sender := by
  change (if x.pool?.isSome then { g with known := e :: g.known } else g).sender = g.sender
  split <;> rfl

theorem keeping_ask {s : Step μ} (hs : s.isOrdinary = true) :
    (conduct (μ := μ)).Keeping (fun g => g.sender = none) (ask s) := by
  intro g hg
  refine obeys_ask ?_ fun reply _ => ?_
  · cases s <;> trivial
  · cases s with
    | readExecutor e => exact (sender_after_readExecutor (μ := μ) g e reply).trans hg
    | record t o => exact hg
    | _ => first | exact hg | cases hs

theorem keeping_record (t : Thread) (o : Occurrence) :
    (conduct (μ := μ)).Keeping (fun g => g.sender = none) (Proc.record t o) :=
  fun _ hg => obeys_ask trivial fun _ _ => hg

/-- A thread that has seen the workers borrows a sender, sends and gives the sender back. -/
theorem obeys_sendToWorkers {g : Access} {e : ExecutorId} (job : Job) (hsender : g.sender = none)
    (hknown : e ∈ g.known) :
    (conduct (μ := μ)).Obeys g (sendToWorkers e job) fun g _ => g.sender = none := by
  refine Obeys.bind (obeys_ask ⟨hsender, hknown⟩ fun borrowed _ => ?_)
  cases borrowed with
  | false => exact hsender
  | true =>
    refine Obeys.bind (obeys_ask rfl fun sent _ => ?_)
    exact Obeys.bind (obeys_ask rfl fun _ _ => rfl)

theorem keeping_handing (e : ExecutorId) (job : Job) :
    (conduct (μ := μ)).Keeping (fun g => g.sender = none) (handing e job) := by
  intro g hg
  refine Obeys.bind (obeys_ask trivial fun executor _ => ?_)
  have hseen : ∀ p, executor.pool? = some p → (conduct (μ := μ)).Obeys
      (g.after (.readExecutor (μ := μ) e) executor)
      ((sendToWorkers e job).bind fun taken => .done (executor, taken)) fun g _ => g.sender = none := by
    intro p hp
    have hafter : g.after (.readExecutor (μ := μ) e) executor = { g with known := e :: g.known } :=
      if_pos (by rw [hp]; rfl)
    rw [hafter]
    exact Obeys.bind (obeys_sendToWorkers (g := ⟨e :: g.known, g.sender⟩) job hg List.mem_cons_self)
  cases executor with
  | manual m => exact Obeys.bind (obeys_ask trivial fun accepted _ => hg)
  | pool name p => exact hseen p rfl
  | runtime p => exact hseen p rfl

theorem keeping_tableOf (t : Thread) (b : BusId) (type : EventType) :
    (conduct (μ := μ)).Keeping (fun g => g.sender = none) (tableOf t b type) :=
  Conduct.keeping_tableOf (fun _ hs => keeping_ask hs) t
    (fun _ _ _ _ hg => obeys_ask trivial fun _ _ => hg)
    (fun _ _ _ _ hg => obeys_ask trivial fun _ _ => hg) b type

theorem suits : (conduct (μ := μ)).Suits fun g => g.sender = none where
  ordinary _ hs := keeping_ask hs
  tabling := keeping_tableOf
  enrolling b s added _ _ hg := obeys_ask trivial fun _ _ => hg
  selecting t b event := by
    refine (keeping_ask (s := .serial) rfl).bind fun id => ?_
    refine (keeping_findHandlers (fun _ hs => keeping_ask hs) t keeping_tableOf b event.type).bind
      fun found => ?_
    refine (keeping_record t _).bind fun _ => ?_
    exact (keeping_ask (s := .readBus b) rfl).bind fun bus => keeping_done _
  handing e job _ := keeping_handing e job
  opening x hx g hg := obeys_ask hx fun _ _ => hg
  trusting _ := trivial
  calling t i object := keeping_record t _
  submitting t i := keeping_record t _
  answering t id outcome := keeping_record t _

theorem reliable : (conduct (μ := μ)).Reliable fun _ _ => True :=
  ⟨fun _ _ _ _ _ _ => trivial, fun _ _ _ _ _ _ _ => trivial, fun _ _ _ _ _ _ => trivial⟩

/-- Whatever the threads do, they keep to this. -/
theorem orderly {β : Behaviour μ} {depth : Nat} {memory : μ} {body : Body μ α} {trace : Trace μ}
    {m : Machine μ α} (h : Run β depth memory body trace m) (t : Turn) :
    conduct.Orderly trace m t :=
  (Conduct.Run.lawful (suits.serves.governs (i := ()) (fun _ => rfl) (fun _ _ hg => hg)
    (fun _ _ hg => hg) (fun _ _ => Iff.rfl) β depth body) reliable h trivial).2 t

end Access

end PubSub
