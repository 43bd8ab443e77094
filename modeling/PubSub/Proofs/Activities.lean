import PubSub.Proofs.Dispatch
import PubSub.Proofs.Frames

/-!
# What threads are at work on

A thread is at work on the posts that it performs and on the jobs that it runs, one inside another. With
each post go the handlers that the post has selected and what the thread has written into the history
about them. The conduct below says what may be written during which of these activities, and how a post
may be answered, given what has been written. What buses are configured for is taken from a world, which
may be a later one.
-/
namespace PubSub

open Program Conduct

variable {μ α β : Type}

/-- The route takes the event to an object for the handler. -/
def Delivery.IsSound (d : Delivery) : Prop :=
  ∃ object, d.route.Carries d.invocation.event.type d.invocation.subscription.topic object

def Job.IsSound : Job → Prop
  | .delivery d _ => d.IsSound
  | .work _ _ => True

/-- The invocation that is dealt with when this happens. -/
def Occurrence.remark? : Occurrence → Option Invocation
  | .called i _ => some i
  | .ended i _ => some i
  | .reported i _ _ _ => some i
  | .dropped i _ => some i
  | _ => none

theorem Occurrence.invocation?_of_remark? {o : Occurrence} {i : Invocation}
    (h : o.remark? = some i) : o.invocation? = some i := by
  cases o <;> first | exact h | cases h

namespace Activities

/-- No delivery has been handed to an executor. -/
def IsLocal (lines : List Occurrence) : Prop := ∀ i, .submitted i ∉ lines

/-- Everything is about deliveries that have been handed to an executor. -/
def IsRemote (lines : List Occurrence) : Prop :=
  ∀ o ∈ lines, ∀ i, o.invocation? = some i → .submitted i ∈ lines

theorem isLocal_append {lines more : List Occurrence} (h : IsLocal lines) (hmore : IsLocal more) :
    IsLocal (lines ++ more) := fun i hi => (List.mem_append.mp hi).elim (h i) (hmore i)

theorem IsRemote.append {lines : List Occurrence} (h : IsRemote lines) {o : Occurrence}
    (ho : ∀ i, o.invocation? = some i → .submitted i ∈ lines ++ [o]) : IsRemote (lines ++ [o]) := by
  intro o' ho' i hi
  rcases List.mem_append.mp ho' with hold | hnew
  · exact List.mem_append_left _ (h o' hold i hi)
  · obtain rfl := List.mem_singleton.mp hnew
    exact ho i hi

/-- More may be written about what has been handed over. -/
theorem IsRemote.append_singleton {lines : List Occurrence} (h : IsRemote lines) {o : Occurrence}
    {i : Invocation} (ho : o.invocation? = some i) (hi : .submitted i ∈ lines ++ [o]) :
    IsRemote (lines ++ [o]) := by
  refine h.append fun j hj => ?_
  rw [ho] at hj
  cases hj
  exact hi

end Activities

/-- What a thread is at work on: a post, with the handlers that it selected and what has been written
about them since, or the job of an invocation. -/
inductive Activity where
  | post (id : PostId) (matched : List Invocation) (lines : List Occurrence)
  | job (i : Invocation)

namespace Activity

def add (activity : Activity) (lines : List Occurrence) : Activity :=
  match activity with
  | .post id matched before => .post id matched (before ++ lines)
  | .job i => .job i

/-- An occurrence about an invocation is written down. A job is over when it is settled. -/
def write (o : Occurrence) : Activity → List Activity
  | .post id matched lines => [.post id matched (lines ++ [o])]
  | .job i =>
    match o with
    | .settled _ => []
    | _ => [.job i]

/-- What happens to an invocation may be written down while this is the latest activity. A post deals with
an invocation by itself unless it has handed the invocation to an executor. -/
def Admits (i : Invocation) : Activity → Prop
  | .post id _ lines => i.post = id ∧
      (Activities.IsLocal lines ∨ Activities.IsRemote lines ∧ .submitted i ∈ lines)
  | .job j => j = i

theorem add_nil (activity : Activity) : activity.add [] = activity := by
  cases activity with
  | post id matched lines => exact congrArg _ (List.append_nil lines)
  | job i => rfl

theorem add_append (activity : Activity) (lines more : List Occurrence) :
    activity.add (lines ++ more) = (activity.add lines).add more := by
  cases activity with
  | post id matched before => exact congrArg _ (List.append_assoc ..).symm
  | job i => rfl

theorem Admits.add_singleton {activity : Activity} {i : Invocation} (h : activity.Admits i)
    {o : Occurrence} (ho : o.remark? = some i) : (activity.add [o]).Admits i := by
  have hmention := Occurrence.invocation?_of_remark? ho
  cases activity with
  | job j => exact h
  | post id matched lines =>
    refine ⟨h.1, h.2.imp (fun hlocal => ?_) fun hremote => ?_⟩
    · refine Activities.isLocal_append hlocal ?_
      intro j hj
      obtain rfl := List.mem_singleton.mp hj
      cases ho
    · have hmem := List.mem_append_left [o] hremote.2
      exact ⟨hremote.1.append_singleton hmention hmem, hmem⟩

end Activity

def Job.activities : Job → List Activity
  | .delivery d _ => [.job d.invocation]
  | .work _ _ => []

/-- How a post may be answered, given what has been written about it: after it has gone through its
handlers, or after it has handed deliveries to an executor. -/
inductive World.Answers (last : World μ) (matched : List Invocation) :
    List Occurrence → Outcome → Prop where
  | dispatched {ran : List Performance} {outcome : Outcome}
      (dispatch : ∀ policy, (∀ i ∈ matched, (last.bus i.bus).settings.policy = policy) →
        last.Dispatch policy [] matched ran outcome) :
      Answers last matched (ran.flatMap last.told) outcome
  | handedOver {lines : List Occurrence} {outcome : Outcome} {i : Invocation}
      (submitted : .submitted i ∈ lines) (calm : ∀ payload, outcome ≠ .panicked payload) :
      Answers last matched lines outcome

namespace World.Answers

variable {last : World μ}

/-- A post that has gone through its handlers, all of one bus, answers as it should. -/
theorem of_dispatch {matched : List Invocation} {b : BusId} {ran : List Performance} {outcome : Outcome}
    (h : last.Dispatch (last.bus b).settings.policy [] matched ran outcome)
    (hbus : ∀ i ∈ matched, i.bus = b) :
    last.Answers matched (ran.flatMap last.told) outcome := by
  refine .dispatched fun policy hpolicy => ?_
  cases matched with
  | nil =>
    cases h
    exact .finished []
  | cons i matched =>
    rw [← hpolicy i List.mem_cons_self, hbus i List.mem_cons_self]
    exact h

/-- A post that has handed its deliveries over answers as it should. -/
theorem of_submitted {ds : List Delivery} {more : List Occurrence} {outcome : Outcome}
    (hcalm : ∀ payload, outcome ≠ .panicked payload)
    (hmore : if ds = [] then more = [] ∧ outcome = .ok else ∃ i, .submitted i ∈ more) :
    last.Answers (ds.map Delivery.invocation) more outcome := by
  cases ds with
  | nil =>
    obtain ⟨rfl, rfl⟩ := hmore
    exact @Answers.dispatched _ _ _ [] _ fun _ _ => .finished []
  | cons d ds =>
    obtain ⟨i, hi⟩ := hmore
    exact .handedOver hi hcalm

end World.Answers

/-- The serials that a thread may still use for posts, and what it is at work on, the
latest first. -/
structure Activities where
  fresh : List PostId
  active : List Activity

namespace Activities

def onTop (g : Activities) (change : Activity → List Activity) : Activities :=
  match g.active with
  | [] => g
  | activity :: rest => { g with active := change activity ++ rest }

def write (g : Activities) : Occurrence → Activities
  | .selected id matched => ⟨g.fresh.erase id, .post id matched [] :: g.active⟩
  | .answered _ _ => g.onTop fun _ => []
  | o => if o.invocation?.isSome then g.onTop (Activity.write o) else g

def after (g : Activities) : (s : Step μ) → s.Reply → Activities
  | .serial, n => { g with fresh := n :: g.fresh }
  | .record _ o, _ => g.write o
  | .pick _ _, some job => { g with active := job.activities ++ g.active }
  | _, _ => g

variable (last : World μ)

/-- What has to be true of something that a thread writes into the history. -/
def Vouches (g : Activities) : Occurrence → Prop
  | .selected id matched => id ∈ g.fresh ∧
      ∃ b event found, matched = (deliveries id b event found).map Delivery.invocation
  | .answered id outcome => ∃ matched lines, g.active.head? = some (.post id matched lines) ∧
      last.Answers matched lines outcome
  | .submitted i => ∃ matched lines, g.active.head? = some (.post i.post matched lines) ∧
      i ∈ matched ∧ IsRemote lines ∧ (last.bus i.bus).discipline ≠ .publisher
  | o => ∀ i, o.invocation? = some i → ∃ activity, g.active.head? = some activity ∧ activity.Admits i

/-- A delivery may be handed to an executor once its post has written this down. -/
def Hands (g : Activities) : Job → Prop
  | .delivery d _ => ∃ id matched lines, g.active.head? = some (.post id matched lines) ∧
      .submitted d.invocation ∈ lines
  | .work _ _ => True

def Allows (g : Activities) : Step μ → Prop
  | .record _ o => Vouches last g o
  | .offer _ job => g.Hands job
  | .send _ job => g.Hands job
  | .openExecutor x => x.jobs = []
  | .enrol _ owner added => (∀ s ∈ added, s.id.owner = owner) ∧ (added.map Subscription.id).Nodup
  | .keepTable _ type table => table.topics.Nodup ∧ table.Carries type
  | _ => True

def Trusts : (s : Step μ) → s.Reply → Prop
  | .readBus b, bus => bus.settings = (last.bus b).settings ∧
    bus.discipline = (last.bus b).discipline ∧
    (∀ type table, bus.tables.get? type = some table → table.Carries type) ∧
    ∀ topic, ∀ s ∈ bus.roster.on topic, s.topic = topic
  | .computeTable _ _ type, table => table.topics.Nodup ∧ table.Carries type
  | .keepTable _ type _, kept => kept.Carries type
  | .pick _ _, some job => job.IsSound
  | _, _ => True

@[reducible] def conduct : Conduct μ where
  Standing := Activities
  base _ := ⟨[], []⟩
  allows := Allows last
  trusts := Trusts last
  after := after
  take g job := { g with active := job.activities ++ g.active }
  wake _ g := g
  trustsJob := Job.IsSound
  rests _ g := g.active = []

/-- Steps that anybody may take and that change no activity. -/
def isSilent : Step μ → Bool
  | .record _ o => o.isFree
  | .offer _ (.delivery _ _) | .send _ (.delivery _ _) => false
  | .openExecutor _ | .enrol _ _ _ | .keepTable _ _ _ | .pick _ _ | .serial => false
  | _ => true

variable {last}

theorem free {s : Step μ} (h : isSilent s = true) : (conduct last).Free s := by
  constructor
  · intro g
    cases s with
    | record t o => cases o <;> first | (rintro i ⟨⟩; done) | nomatch h
    | offer e job => cases job <;> trivial
    | send e job => cases job <;> trivial
    | _ => trivial
  · intro g reply
    cases s with
    | record t o => cases o <;> first | rfl | nomatch h
    | _ => first | rfl | cases h

theorem freely {s : Step μ} (h : isSilent s = true) :
    (conduct last).Freely (ask s) (Trusts last s) := (free h).freely

theorem freely_log {t : Thread} {level : Level} {target message : String}
    {fields : List (String × String)} :
    (conduct last).Freely (Proc.log (μ := μ) t level target message fields) fun _ => True :=
  freely (s := .record t _) rfl

/-- From these activities the program keeps to the rules, and leaves activities behind as the last
argument says. -/
def Keeps (last : World μ) (active : List Activity) (p : Proc μ α) (Q : α → List Activity → Prop) :
    Prop :=
  ∀ g : Activities, g.active = active → (conduct last).Obeys g p fun g a => Q a g.active

section Keeps

variable {active : List Activity} {p : Proc μ α} {f : α → Proc μ β} {Q R : α → List Activity → Prop}
  {S : β → List Activity → Prop}

theorem keeps_done {a : α} (h : Q a active) : Keeps last active (.done a : Proc μ α) Q := by
  rintro g rfl
  exact h

theorem Keeps.mono (h : Keeps last active p Q) (hQR : ∀ a active, Q a active → R a active) :
    Keeps last active p R := fun g hg => (h g hg).mono fun _ _ hQ => hQR _ _ hQ

theorem Keeps.bind (h : Keeps last active p Q)
    (hf : ∀ a active, Q a active → Keeps last active (f a) S) : Keeps last active (p.bind f) S :=
  fun g hg => Obeys.bind ((h g hg).mono fun g a hQ => hf a g.active hQ g rfl)

/-- A program that goes on from activities that are known. -/
theorem Keeps.bind_eq {active' : List Activity} (h : Keeps last active p fun _ active => active = active')
    (hf : ∀ a, Keeps last active' (f a) S) : Keeps last active (p.bind f) S :=
  h.bind fun a _ hactive => hactive ▸ hf a

theorem keeps_freely {P : α → Prop} (h : (conduct last).Freely p P) :
    Keeps last active p fun a active' => active' = active ∧ P a := fun g hg =>
  (h g).mono fun _ _ hQ => ⟨hQ.1 ▸ hg, hQ.2⟩

theorem keeps_freely_bind {P : α → Prop} (h : (conduct last).Freely p P)
    (hf : ∀ a, P a → Keeps last active (f a) S) : Keeps last active (p.bind f) S :=
  (keeps_freely h).bind fun a _ hactive => hactive.1 ▸ hf a hactive.2

end Keeps

/-- The program writes about the latest activity, which admits an invocation, and nothing that would make
the activity refuse it. -/
def Adds (last : World μ) (i : Invocation) (p : Proc μ α) (Q : α → List Occurrence → Prop) : Prop :=
  ∀ activity rest, activity.Admits i → Keeps last (activity :: rest) p fun a active =>
    ∃ lines, Q a lines ∧ (activity.add lines).Admits i ∧ active = activity.add lines :: rest

section Adds

variable {i : Invocation} {p : Proc μ α} {f : α → Proc μ β} {Q R : α → List Occurrence → Prop}
  {S : β → List Occurrence → Prop}

theorem adds_keeping {P : α → Prop}
    (h : ∀ active, Keeps last active p fun a active' => active' = active ∧ P a) :
    Adds last i p fun a lines => lines = [] ∧ P a := by
  intro activity rest hactivity
  refine (h _).mono ?_
  rintro a active ⟨rfl, hP⟩
  refine ⟨[], ⟨rfl, hP⟩, ?_⟩
  rw [Activity.add_nil]
  exact ⟨hactivity, rfl⟩

theorem adds_done {a : α} (h : Q a []) : Adds last i (.done a : Proc μ α) Q := by
  intro activity rest hactivity
  refine keeps_done ⟨[], h, ?_⟩
  rw [Activity.add_nil]
  exact ⟨hactivity, rfl⟩

theorem Adds.mono (h : Adds last i p Q) (hQR : ∀ a lines, Q a lines → R a lines) :
    Adds last i p R := by
  intro activity rest hactivity
  refine (h activity rest hactivity).mono ?_
  rintro a active ⟨lines, hQ, hrest⟩
  exact ⟨lines, hQR a lines hQ, hrest⟩

theorem Adds.bind (h : Adds last i p Q)
    (hf : ∀ a lines, Q a lines → Adds last i (f a) fun b more => S b (lines ++ more)) :
    Adds last i (p.bind f) S := by
  intro activity rest hactivity
  refine (h activity rest hactivity).bind ?_
  rintro a _ ⟨lines, hQ, hadmits, rfl⟩
  refine (hf a lines hQ _ rest hadmits).mono ?_
  rintro b _ ⟨more, hS, hadmits, rfl⟩
  refine ⟨lines ++ more, hS, ?_⟩
  rw [Activity.add_append]
  exact ⟨hadmits, rfl⟩

/-- What is written first is known. -/
theorem Adds.bind_eq {lines : List Occurrence} (h : Adds last i p fun _ l => l = lines)
    (hf : ∀ a, Adds last i (f a) fun b more => S b (lines ++ more)) :
    Adds last i (p.bind f) S := by
  refine h.bind ?_
  rintro a _ rfl
  exact hf a

theorem adds_freely {P : α → Prop} (h : (conduct last).Freely p P) :
    Adds last i p fun a lines => lines = [] ∧ P a := adds_keeping fun _ => keeps_freely h

theorem adds_freely_bind {P : α → Prop} (h : (conduct last).Freely p P)
    (hf : ∀ a, P a → Adds last i (f a) S) : Adds last i (p.bind f) S := by
  refine (adds_freely h).bind ?_
  rintro a _ ⟨rfl, hP⟩
  exact hf a hP

/-- Something that happens while an invocation is dealt with is written down. -/
theorem adds_record (t : Thread) {o : Occurrence} (ho : o.remark? = some i) :
    Adds last i (Proc.record (μ := μ) t o) fun _ lines => lines = [o] := by
  intro activity rest hadmits g hg
  refine obeys_ask ?_ fun _ _ => ?_
  · have hvouches : ∀ j, o.invocation? = some j → ∃ activity, g.active.head? = some activity ∧
        activity.Admits j := by
      rintro j hj
      rw [Occurrence.invocation?_of_remark? ho] at hj
      cases hj
      exact ⟨activity, congrArg List.head? hg, hadmits⟩
    cases o <;> first | exact hvouches | cases ho
  · refine ⟨[o], rfl, hadmits.add_singleton ho, ?_⟩
    have hwrite : g.write o = g.onTop (Activity.write o) := by
      cases o <;> first | rfl | cases ho
    have hactivity : activity.write o = [activity.add [o]] := by
      cases activity <;> cases o <;> first | rfl | cases ho
    change (g.write o).active = _
    rw [hwrite, onTop, hg]
    exact congrArg (· ++ rest) hactivity

end Adds

end Activities

end PubSub
