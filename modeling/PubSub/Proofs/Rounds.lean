import PubSub.Proofs.Upkeep

/-!
# Rounds

A post looks once at the roster of its bus and then goes its round: it visits the handlers that it
has found there one after another, and it ends when none is left or when a visit gives a reason to
stop. What buses are configured for is taken from a world, which may be a later one.
-/
namespace PubSub

open Program Conduct

variable {μ α : Type}

/-- A post on its round: the handlers that it has visited, and those that are still to come. -/
structure Tour where
  id : PostId
  visited : List Invocation
  todo : List Invocation

namespace World

variable (w : World μ)

/-- A visit to a handler: the publisher's thread calls it, or submits its delivery to an executor. -/
def visit? : Occurrence → Option Invocation
  | .called i _ => if (w.bus i.bus).discipline = .publisher then some i else none
  | .submitted i => some i
  | _ => none

/-- Why a post that answers this goes no further than to this handler: the handler has failed so that
the policy of the bus stops the post, or the executor has refused the delivery. -/
inductive Halts (said : List Occurrence) (i : Invocation) (outcome : Outcome) : Prop where
  | failed {r : Reaction} (discipline : (w.bus i.bus).discipline = .publisher)
      (ended : .ended i r ∈ said) (stops : (w.bus i.bus).settings.policy.stops r = true)
  | rejected {executor : String} {error : BusError} (discipline : (w.bus i.bus).discipline ≠ .publisher)
      (dropped : .dropped i executor ∈ said) (refused : outcome = .failed error)

/-- A post may end its round here. -/
def Ends (said : List Occurrence) (tour : Tour) (outcome : Outcome) : Prop :=
  tour.todo = [] ∨ ∃ i, tour.visited.getLast? = some i ∧ w.Halts said i outcome

/-- The handlers are those that one view of a bus gives for an event, by the table that the bus keeps
for its type. -/
def Shows (b : BusId) (bus : Bus) (id : PostId) (matched : List Invocation) : Prop :=
  ∃ event table, (w.bus b).tables.get? event.type = some table ∧
    matched = (deliveries id b event (bus.roster.select table)).map Delivery.invocation

/-- A delivery is a job only on a bus that has an executor, and after its submission was written
down. -/
def Defers : Job → Prop
  | .delivery d _ => (w.bus d.invocation.bus).discipline ≠ .publisher ∧
      .submitted d.invocation ∈ w.story d.invocation.post
  | .work _ _ => True

/-- A handler that is called without being visited is called for its delivery. -/
def Grants : Occurrence → Prop
  | .called i _ => .submitted i ∈ w.story i.post
  | _ => True

variable {w}

theorem Halts.mono {said said' : List Occurrence} {i : Invocation} {outcome : Outcome}
    (h : w.Halts said i outcome) (hsaid : said ⊆ said') : w.Halts said' i outcome := by
  cases h with
  | failed discipline ended stops => exact .failed discipline (hsaid ended) stops
  | rejected discipline dropped refused => exact .rejected discipline (hsaid dropped) refused

end World

/-- The serial that a thread has drawn for its next post, the views of buses that it has had since
then, what it has written into the history, and its posts, the latest first. -/
structure Rounds where
  number : Option PostId
  views : List (BusId × Bus)
  said : List Occurrence
  tours : List Tour

namespace Rounds

variable (last : World μ)

def visit (g : Rounds) (i : Invocation) : Rounds :=
  match g.tours with
  | [] => g
  | tour :: rest => { g with tours := ⟨tour.id, tour.visited ++ [i], tour.todo.tail⟩ :: rest }

def say (g : Rounds) (o : Occurrence) : Rounds :=
  let g := { g with said := o :: g.said }
  match o with
  | .selected id matched => { g with number := none, tours := ⟨id, [], matched⟩ :: g.tours }
  | .answered _ _ => { g with tours := g.tours.tail }
  | o => (last.visit? o).elim g g.visit

def after (g : Rounds) : (s : Step μ) → s.Reply → Rounds
  | .serial, n => { g with number := some n, views := [] }
  | .readBus b, bus => { g with views := (b, bus) :: g.views }
  | .record _ o, _ => g.say last o
  | _, _ => g

/-- What has to be true of something that a thread writes into the history. -/
def Vouches (g : Rounds) : Occurrence → Prop
  | .selected id matched => g.number = some id ∧ ∃ view ∈ g.views, last.Shows view.1 view.2 id matched
  | .answered id outcome => ∃ tour rest, g.tours = tour :: rest ∧ tour.id = id ∧
      last.Ends g.said tour outcome
  | o => (last.visit? o).elim (last.Grants o) fun i => ∃ tour todo rest, g.tours = tour :: rest ∧
      tour.id = i.post ∧ tour.todo = i :: todo

def Allows (g : Rounds) : Step μ → Prop
  | .record _ o => Vouches last g o
  | .enrol _ owner added => ∃ s : Subscriber, s.owner = owner ∧ s.subscribe = .ok added
  | .offer _ job | .send _ job => last.Defers job
  | .openExecutor x => x.jobs = []
  | _ => True

/-- The tables that a bus keeps are never replaced, and what is written down is never erased. -/
def Remembers : (s : Step μ) → s.Reply → Prop
  | .record _ o, _ => ∀ id, o.post? = some id → o ∈ last.story id
  | .readBus b, bus => ∀ type table, bus.tables.get? type = some table →
      (last.bus b).tables.get? type = some table
  | .keepTable b type _, kept => (last.bus b).tables.get? type = some kept
  | .pick _ _, some job => last.Defers job
  | _, _ => True

@[reducible] def conduct : Conduct μ where
  Standing := Rounds
  base _ := ⟨none, [], [], []⟩
  allows := Allows last
  trusts s reply := Activities.Trusts last s reply ∧ Remembers last s reply
  after := after last
  take g _ := g
  wake _ g := g
  trustsJob := last.Defers
  rests _ g := g.tours = []

/-- A thread has these posts, and it has written this into the history. -/
def Has (k : List Tour × List Occurrence) (g : Rounds) : Prop := g.tours = k.1 ∧ k.2 ⊆ g.said

variable {last} {k : List Tour × List Occurrence}

/-- Something is written down that moves no post. -/
theorem passing_record (t : Thread) {o : Occurrence} (hvouches : ∀ g, Vouches last g o)
    (hsay : ∀ g : Rounds, g.say last o = { g with said := o :: g.said }) :
    (conduct last).Passing (Has k) (Proc.record t o) fun _ => Has (k.1, o :: k.2) := by
  refine fun g hg => obeys_ask (hvouches g) fun _ _ => ?_
  change Has _ (g.say last o)
  rw [hsay]
  exact ⟨hg.1, List.cons_subset_cons o hg.2⟩

theorem has_of_cons {o : Occurrence} {g : Rounds} (h : Has (k.1, o :: k.2) g) : Has k g :=
  ⟨h.1, fun _ hx => h.2 (List.mem_cons_of_mem o hx)⟩

theorem keeping_record (t : Thread) {o : Occurrence} (hvouches : ∀ g, Vouches last g o)
    (hsay : ∀ g : Rounds, g.say last o = { g with said := o :: g.said }) :
    (conduct last).Keeping (Has k) (Proc.record t o) := fun g hg =>
  (passing_record t hvouches hsay g hg).mono fun _ _ hg => has_of_cons hg

theorem keeping_ask {s : Step μ} (hs : s.isOrdinary = true) :
    (conduct last).Keeping (Has k) (ask s) := by
  cases s with
  | record t o =>
    cases o with
    | selected | called | submitted | answered => cases hs
    | _ => exact keeping_record t (fun _ => trivial) fun _ => rfl
  | enrol | offer | borrow | send | giveBack | openExecutor => cases hs
  | _ => exact fun g hg => obeys_ask trivial fun _ _ => hg

theorem keeping_handing (e : ExecutorId) {job : Job} (hjob : last.Defers job) :
    (conduct last).Keeping (Has k) (handing e job) := by
  have hsend : (conduct last).Keeping (Has k) (sendToWorkers e job) := by
    refine Keeping.bind (fun g hg => obeys_ask trivial fun _ _ => hg) fun borrowed => ?_
    cases borrowed with
    | false => exact keeping_done _
    | true =>
      refine Keeping.bind (fun g hg => obeys_ask hjob fun _ _ => hg) fun sent => ?_
      exact Keeping.bind (fun g hg => obeys_ask trivial fun _ _ => hg) fun _ => keeping_done _
  refine (keeping_ask (s := .readExecutor e) rfl).bind fun executor => ?_
  cases executor with
  | manual m => exact Keeping.bind (fun g hg => obeys_ask hjob fun _ _ => hg) fun _ => keeping_done _
  | pool name p => exact hsend.bind fun _ => keeping_done _
  | runtime p => exact hsend.bind fun _ => keeping_done _

theorem minds (k : List Tour × List Occurrence) : (conduct last).Minds (Has k) where
  ordinary _ hs := keeping_ask hs
  tabling t := keeping_tableOf (fun _ hs => keeping_ask hs) t
    (fun _ _ _ _ hg => obeys_ask trivial fun _ _ => hg)
    (fun _ _ _ _ hg => obeys_ask trivial fun _ _ => hg)
  enrolling _ s _ hs _ hg := obeys_ask ⟨s, rfl, hs⟩ fun _ _ => hg
  handing e _ hjob := keeping_handing e hjob
  opening _ hx _ hg := obeys_ask hx.jobs fun _ _ => hg

/-- A thread goes on from here without a new number, and forgets nothing. -/
structure GoesOn (g g' : Rounds) : Prop where
  number : g'.number = g.number
  views : g.views ⊆ g'.views
  said : g.said ⊆ g'.said
  tours : g'.tours = g.tours

theorem GoesOn.trans {g g' g'' : Rounds} (h : g.GoesOn g') (h' : g'.GoesOn g'') : g.GoesOn g'' :=
  ⟨h'.number.trans h.number, List.Subset.trans h.views h'.views, List.Subset.trans h.said h'.said,
    h'.tours.trans h.tours⟩

variable {g : Rounds} (t : Thread) (b : BusId)

theorem obeys_readBus {Q : Rounds → Bus → Prop} (h : ∀ bus, Activities.Trusts last (.readBus b) bus →
      Remembers last (.readBus b) bus → Q { g with views := (b, bus) :: g.views } bus) :
    (conduct last).Obeys g (Proc.readBus b) Q := obeys_ask trivial fun bus hbus => h bus hbus.1 hbus.2

theorem goesOn_readBus (bus : Bus) : g.GoesOn { g with views := (b, bus) :: g.views } :=
  ⟨rfl, List.subset_cons_self _ _, List.Subset.refl _, rfl⟩

theorem obeys_log {level : Level} {target message : String} {fields : List (String × String)} :
    (conduct last).Obeys g (Proc.log t level target message fields) fun g' _ => g.GoesOn g' :=
  obeys_ask trivial fun _ _ => ⟨rfl, List.Subset.refl _, List.subset_cons_self _ _, rfl⟩

/-- The table that a bus keeps for a type, with routes that carry events of this type. -/
def Keeps (last : World μ) (b : BusId) (type : EventType) (table : Table) : Prop :=
  (last.bus b).tables.get? type = some table ∧ table.Carries type

theorem obeys_tableOf (type : EventType) :
    (conduct last).Obeys g (tableOf t b type) fun g' table =>
      g.GoesOn g' ∧ Keeps last b type table := by
  refine Obeys.bind (obeys_readBus b fun bus htrusts hremembers => ?_)
  have hgoes := goesOn_readBus b (g := g) bus
  cases hkept : bus.tables.get? type with
  | some table => exact ⟨hgoes, hremembers type table hkept, htrusts.2.2.1 type table hkept⟩
  | none =>
    refine Obeys.bind (obeys_ask trivial fun table _ => ?_)
    exact obeys_ask trivial fun kept hkept => ⟨hgoes, hkept.2, hkept.1⟩

/-- The handlers that a view of the bus gives. -/
def Finds (last : World μ) (b : BusId) (type : EventType) (g : Rounds) (found : List Selection) : Prop :=
  ∃ bus table, (b, bus) ∈ g.views ∧ (last.bus b).tables.get? type = some table ∧
    found = bus.roster.select table ∧
    ∀ s ∈ found, ∃ object, s.route.Carries type s.subscription.topic object

theorem Finds.later {type : EventType} {g g' : Rounds} {found : List Selection}
    (h : Finds last b type g found) (hgoes : g.GoesOn g') : Finds last b type g' found := by
  obtain ⟨bus, table, hview, hfound⟩ := h
  exact ⟨bus, table, hgoes.views hview, hfound⟩

theorem obeys_selection (type : EventType) :
    (conduct last).Obeys g (selection t b type) fun g' found =>
      g.GoesOn g' ∧ Finds last b type g' found := by
  refine Obeys.bind ((obeys_tableOf t b type).mono ?_)
  rintro g' table ⟨hgoes, htable, hcarries⟩
  refine Obeys.bind (obeys_readBus b fun bus htrusts _ => ?_)
  refine ⟨hgoes.trans (goesOn_readBus b bus), bus, table, List.mem_cons_self, htable, rfl, ?_⟩
  intro s hs
  obtain ⟨⟨topic, route⟩, hentry, hs⟩ := List.mem_flatMap.mp hs
  obtain ⟨subscription, hmem, rfl⟩ := List.mem_map.mp hs
  obtain rfl := htrusts.2.2.2 _ _ hmem
  exact hcarries _ hentry

theorem obeys_findHandlers (type : EventType) :
    (conduct last).Obeys g (findHandlers t b type) fun g' found =>
      g.GoesOn g' ∧ Finds last b type g' found := by
  refine Obeys.bind ((obeys_selection t b type).mono ?_)
  rintro g₁ found ⟨hgoes, hfound⟩
  refine Obeys.bind (obeys_readBus b fun bus _ _ => ?_)
  have hread := goesOn_readBus b (g := g₁) bus
  have hlog : ∀ {level : Level} {target message : String} {fields : List (String × String)},
      (conduct last).Obeys { g₁ with views := (b, bus) :: g₁.views }
        ((Proc.log t level target message fields).bind fun _ => .done found) fun g' found =>
          g.GoesOn g' ∧ Finds last b type g' found :=
    Obeys.bind ((obeys_log t).mono fun _ _ hlog =>
      ⟨hgoes.trans (hread.trans hlog), hfound.later b (hread.trans hlog)⟩)
  by_cases hempty : found.isEmpty
  · simp only [hempty, if_true]
    exact hlog
  · simp only [hempty]
    exact hlog

/-- The deliveries of a post on a bus, by routes that take its event to the handlers. -/
def Plans (id : PostId) (ds : List Delivery) : Prop :=
  ∀ d ∈ ds, d.IsSound ∧ d.invocation.post = id ∧ d.invocation.bus = b

/-- A post takes a number, finds its handlers in one view of its bus, and sets out. -/
theorem passing_selecting (event : Event) :
    (conduct last).Passing (Has k) (selecting t b event) fun (id, ds, bus) g =>
      Has (⟨id, [], ds.map Delivery.invocation⟩ :: k.1, k.2) g ∧ Plans b id ds ∧
        bus.settings = (last.bus b).settings ∧ bus.discipline = (last.bus b).discipline := by
  intro g hg
  refine Obeys.bind (obeys_ask trivial fun id _ => ?_)
  refine Obeys.bind ((obeys_findHandlers t b event.type).mono ?_)
  rintro g' found ⟨hgoes, bus, table, hview, htable, hfound, hsound⟩
  have hshows : last.Shows b bus id ((deliveries id b event found).map Delivery.invocation) :=
    ⟨event, table, htable, hfound ▸ rfl⟩
  refine Obeys.bind (obeys_ask ⟨hgoes.number, (b, bus), hview, hshows⟩ fun _ _ => ?_)
  refine Obeys.bind (obeys_readBus b fun bus htrusts _ => ⟨⟨?_, ?_⟩, ?_, htrusts.1, htrusts.2.1⟩)
  · exact congrArg (_ :: ·) (hgoes.tours.trans hg.1)
  · exact fun x hx => List.mem_cons_of_mem _ (hgoes.said (hg.2 hx))
  · intro d hd
    obtain ⟨hpost, hbus, -⟩ := Activities.bus_deliveries _ (List.mem_map_of_mem hd)
    exact ⟨Activities.sound_deliveries id hsound d hd, hpost, hbus⟩

/-- A post, on top of those that its thread had before, may answer this. -/
def Arrives (last : World μ) (k : List Tour × List Occurrence) (id : PostId) (outcome : Outcome)
    (g : Rounds) : Prop :=
  (∃ tour, g.tours = tour :: k.1 ∧ tour.id = id ∧ last.Ends g.said tour outcome) ∧ k.2 ⊆ g.said

section Round

variable {client : Client μ} (hclient : ∀ k, (conduct last).Tolerates (Has k) client)
  {id : PostId} {visited todo : List Invocation} {tours : List Tour} {said : List Occurrence}

/-- The next handler is visited, and this is written down. -/
theorem passing_visit {i : Invocation} {o : Occurrence} (hvisit : last.visit? o = some i)
    (hpost : i.post = id) :
    (conduct last).Passing (Has (⟨id, visited, i :: todo⟩ :: tours, said)) (Proc.record t o) fun _ g =>
      Has (⟨id, visited ++ [i], todo⟩ :: tours, said) g ∧ Remembers last (.record t o) () := by
  intro g hg
  have hvouches : Vouches last g o := by
    have hnext : (last.visit? o).elim (last.Grants o) fun i => ∃ tour todo rest,
        g.tours = tour :: rest ∧ tour.id = i.post ∧ tour.todo = i :: todo := by
      rw [hvisit]
      exact ⟨_, todo, tours, hg.1, hpost.symm, rfl⟩
    cases o <;> first | exact hnext | cases hvisit
  refine obeys_ask hvouches fun _ hremembers => ⟨?_, hremembers.2⟩
  have hsay : g.say last o = visit { g with said := o :: g.said } i := by
    cases o with
    | called | submitted => simp only [say, hvisit, Option.elim_some]
    | _ => cases hvisit
  have htours : g.tours = ⟨id, visited, i :: todo⟩ :: tours := hg.1
  change Has _ (g.say last o)
  rw [hsay, visit]
  simp only [htours]
  exact ⟨rfl, fun x hx => List.mem_cons_of_mem _ (hg.2 hx)⟩

include hclient

/-- On the publisher's thread a handler is called, and its end is written down. -/
theorem passing_runHandler {d : Delivery} (hsound : d.IsSound) (hpost : d.invocation.post = id)
    (hdiscipline : (last.bus d.invocation.bus).discipline = .publisher) :
    (conduct last).Passing (Has (⟨id, visited, d.invocation :: todo⟩ :: tours, said))
      (runHandler client t d) fun r =>
        Has (⟨id, visited ++ [d.invocation], todo⟩ :: tours, .ended d.invocation r :: said) := by
  obtain ⟨object, hcarries⟩ := hsound
  have hroute : d.route.follow d.invocation.event d.invocation.subscription.topic =
      some (object d.invocation.event) := by
    rw [hcarries, if_pos ⟨rfl, rfl⟩]
  rw [runHandler]
  refine passing_exclusively (minds _).ordinary (fun _ => (minds _).ordinary) t _ _ ?_
  simp only [hroute]
  have hvisit : last.visit? (.called d.invocation (object d.invocation.event)) = some d.invocation :=
    if_pos hdiscipline
  refine (passing_visit t hvisit hpost).bind fun _ g hg => ?_
  refine Passing.bind ((hclient _).handle _ _) (fun r => ?_) g hg.1
  exact (passing_record (o := .ended d.invocation r) t (fun _ => trivial) fun _ => rfl).bind
    fun _ _ hg => hg

theorem passing_deliverAll {policy : ErrorPolicy} (failures : List Failure) (ds : List Delivery)
    (hds : Plans b id ds) (hdiscipline : (last.bus b).discipline = .publisher)
    (hpolicy : (last.bus b).settings.policy = policy) (hsaid : k.2 ⊆ said) :
    (conduct last).Passing (Has (⟨id, visited, ds.map Delivery.invocation⟩ :: k.1, said))
      (deliverAll client t policy failures ds) (Arrives last k id) := by
  induction ds generalizing failures visited said with
  | nil => exact fun g hg => ⟨⟨_, hg.1, rfl, .inl rfl⟩, List.Subset.trans hsaid hg.2⟩
  | cons d ds ih =>
    obtain ⟨⟨hsound, hpost, rfl⟩, hrest⟩ := List.forall_mem_cons.mp hds
    refine (passing_runHandler t hclient hsound hpost hdiscipline).bind fun r => ?_
    have hmore : k.2 ⊆ .ended d.invocation r :: said := List.subset_cons_of_subset _ hsaid
    have hstopped : policy.stops r = true → ∀ g : Rounds,
        Has (⟨id, visited ++ [d.invocation], ds.map Delivery.invocation⟩ :: k.1,
          .ended d.invocation r :: said) g → ∀ outcome, Arrives last k id outcome g := by
      refine fun hstops g hg outcome => ⟨⟨_, hg.1, rfl, .inr ⟨d.invocation, List.getLast?_concat, ?_⟩⟩,
        List.Subset.trans hmore hg.2⟩
      exact .failed hdiscipline (hg.2 List.mem_cons_self) (hpolicy ▸ hstops)
    cases r with
    | fine => exact ih _ hrest hmore
    | panicked payload =>
      refine Passing.bind ((minds _).tellAll t (hclient _) _ _) fun _ g hg => ?_
      exact hstopped (by cases policy <;> rfl) g hg _
    | failed error =>
      refine Passing.bind ((minds _).tellAll t (hclient _) _ _) fun failure => ?_
      cases policy with
      | propagate => exact fun g hg => hstopped rfl g hg _
      | collect => exact ih _ hrest hmore

/-- A delivery that the executor refuses is written off before its poster learns of it. -/
theorem passing_submit (e : ExecutorId) {d : Delivery} (name : String)
    (hdefers : last.Defers (.delivery d name)) :
    (conduct last).Passing (Has k) (submit client t e (.delivery d name)) fun answer g => Has k g ∧
      ∀ error, answer = .error error → .dropped d.invocation name ∈ g.said := by
  have hdrop : ∀ answer, (conduct last).Passing (Has k)
      ((dropJob client t (.delivery d name)).bind fun _ =>
        (.done answer : Proc μ (Except BusError Unit))) fun answer g => Has k g ∧
      ∀ error, answer = .error error → .dropped d.invocation name ∈ g.said := by
    intro answer
    refine Passing.bind (Q := fun _ => Has (k.1, .dropped d.invocation name :: k.2)) ?_
      fun _ g hg => ⟨has_of_cons hg, fun _ _ => hg.2 List.mem_cons_self⟩
    refine (passing_record (o := .dropped d.invocation name) t (fun _ => trivial) fun _ => rfl).bind
      fun _ => ?_
    refine Passing.bind ((minds _).tellAll t (hclient _) _ _) fun _ => ?_
    exact (minds _).ordinary (.record t (.settled d.invocation)) rfl
  rw [submit_eq]
  refine Passing.bind (keeping_handing e hdefers) ?_
  rintro ⟨executor, taken⟩
  rcases taken with _ | _ | _
  · cases executor <;> exact hdrop _
  · cases executor <;> exact hdrop _
  · exact fun g hg => ⟨hg, nofun⟩

theorem passing_submitAll (e : ExecutorId) (ds : List Delivery) (hds : Plans b id ds)
    (hdiscipline : (last.bus b).discipline ≠ .publisher) (hsaid : k.2 ⊆ said) :
    (conduct last).Passing (Has (⟨id, visited, ds.map Delivery.invocation⟩ :: k.1, said))
      (submitAll client t e ds) (Arrives last k id) := by
  induction ds generalizing visited said with
  | nil => exact fun g hg => ⟨⟨_, hg.1, rfl, .inl rfl⟩, List.Subset.trans hsaid hg.2⟩
  | cons d ds ih =>
    obtain ⟨⟨-, hpost, rfl⟩, hrest⟩ := List.forall_mem_cons.mp hds
    refine Passing.bind (keeping_ask (s := .readExecutor e) rfl) fun executor => ?_
    refine (passing_visit t rfl hpost).bind ?_
    rintro _ g ⟨hg, hremembers⟩
    refine Passing.bind (passing_submit t hclient e _ ⟨hdiscipline, hremembers _ rfl⟩) (fun answer => ?_)
      g hg
    cases answer with
    | ok _ => exact fun g hg => ih hrest hsaid g hg.1
    | error error =>
      rintro g ⟨hg, hdropped⟩
      have hg' : Has (⟨id, visited ++ [d.invocation], ds.map Delivery.invocation⟩ :: k.1,
          .dropped d.invocation executor.view.name :: said) g :=
        ⟨hg.1, List.cons_subset.mpr ⟨hdropped error rfl, hg.2⟩⟩
      refine Passing.bind (keeping_ask (s := .readBus d.invocation.bus) rfl) (fun bus => ?_) g hg'
      refine Passing.bind ((minds _).log t) fun _ g hg => ⟨⟨_, hg.1, rfl, .inr ⟨d.invocation,
        List.getLast?_concat, ?_⟩⟩, List.Subset.trans hsaid fun x hx => hg.2 (List.mem_cons_of_mem _ hx)⟩
      exact .rejected hdiscipline (hg.2 List.mem_cons_self) rfl

theorem keeping_post (event : Event) : (conduct last).Keeping (Has k) (post client t b event) := by
  rw [post_eq]
  refine (passing_selecting t b event).bind ?_
  rintro ⟨id, ds, bus⟩ g ⟨hg, hds, hsettings, hdiscipline⟩
  have hanswered : ∀ outcome, (conduct last).Passing (Arrives last k id outcome)
      ((Proc.record t (.answered id outcome)).bind fun _ => (.done outcome : Proc μ Outcome))
      fun _ => Has k := by
    rintro outcome g ⟨⟨tour, htours, hid, hends⟩, hsaid⟩
    refine Obeys.bind (obeys_ask ⟨tour, k.1, htours, hid, hends⟩ fun _ _ => ⟨?_, ?_⟩)
    · exact congrArg List.tail htours
    · exact fun x hx => List.mem_cons_of_mem _ (hsaid hx)
  cases hcase : bus.discipline with
  | publisher =>
    simp only [delivering, hcase]
    refine (passing_deliverAll t b hclient [] ds hds (hdiscipline.symm.trans hcase) ?_
      (List.Subset.refl _)).bind hanswered g hg
    rw [hsettings]
  | executor e =>
    simp only [delivering, hcase]
    refine (passing_submitAll t b hclient e ds hds ?_ (List.Subset.refl _)).bind hanswered g hg
    rw [← hdiscipline, hcase]
    intro heq
    cases heq

end Round

/-- A job is the delivery of a bus that does not deliver on the publisher's thread. -/
theorem serves : (conduct last).Serves Has where
  minds := minds
  working _ _ := trivial
  picking k e place g hg := obeys_ask trivial fun job hjob => ⟨hg, fun j hj => by
    subst hj
    exact hjob.2⟩
  calling k t d _ object hdefers := by
    have hvisit : last.visit? (.called d.invocation object) = none := if_neg hdefers.1
    refine keeping_record t (fun g => ?_) fun g => ?_
    · simp only [Vouches, hvisit, Option.elim_none]
      exact hdefers.2
    · simp only [say, hvisit, Option.elim_none]
  posting _ hclient k t b event := keeping_post t b hclient event

/-- All threads keep to their rounds, whatever code the clients bring. -/
theorem governs (β : Behaviour μ) (depth : Nat) (body : Body μ α) :
    (conduct last).Governs β depth body :=
  serves.governs (i := ([], [])) (fun _ => ⟨rfl, List.nil_subset _⟩) (fun _ _ hg => hg)
    (fun _ _ hg => hg) (fun _ _ => ⟨fun hg => ⟨hg, List.nil_subset _⟩, fun hg => hg.1⟩) β depth body

end Rounds

end PubSub
