import PubSub.Proofs.Resolution
import PubSub.Proofs.Sequences

/-!
# Ways of delivery

The same event posted on the same bus, which delivers on the publisher's thread under either policy, or
hands the deliveries to an executor that keeps them until the post is over.
-/
namespace PubSub

open Program

variable {μ : Type}

/-- The same world, but for what a bus does after an error and where it runs handlers. -/
def World.configured (w : World μ) (b : BusId) (policy : ErrorPolicy) (discipline : Discipline) :
    World μ :=
  w.setBus b { w.bus b with settings := { (w.bus b).settings with policy }, discipline }

def World.host (w : World μ) (b : BusId) : Host :=
  ⟨b, (w.bus b).settings.identifier, (w.bus b).observers⟩

namespace World

variable {w w' : World μ} {b : BusId} {policy : ErrorPolicy} {discipline : Discipline}

theorem bus_configured (hb : b < w.buses.length) :
    (w.configured b policy discipline).bus b =
      { w.bus b with settings := { (w.bus b).settings with policy }, discipline } :=
  w.bus_setBus b _ hb

theorem hosts_configured (hb : b < w.buses.length) (hfree : (w.bus b).locks.IsFree) :
    (w.configured b policy discipline).Hosts (w.host b) w.memory := by
  have hbus : (w.configured b policy discipline).bus b = _ := bus_configured hb
  refine ⟨⟨(w.length_setBus ..).symm ▸ hb, ?_, ?_, rfl⟩, ?_⟩
  · change ((w.configured b policy discipline).bus b).settings.identifier = _
    rw [hbus]
    rfl
  · change ((w.configured b policy discipline).bus b).observers = _
    rw [hbus]
    rfl
  · change ((w.configured b policy discipline).bus b).locks.IsFree
    rwa [hbus]

theorem tableFor_configured (hb : b < w.buses.length) (type : EventType) :
    (w.configured b policy discipline).tableFor b type = w.tableFor b type := by
  rw [tableFor, bus_configured hb]
  rfl

theorem LooksUp.hosts {host : Host} {m : μ} (h : w.LooksUp w' host.bus) (hw : w.Hosts host m) :
    w'.Hosts host m := by
  obtain ⟨tables, hbus⟩ := h.bus
  refine ⟨⟨h.length.symm ▸ hw.isOpen, ?_, ?_, h.memory.trans hw.memory⟩, ?_⟩
  · exact hbus ▸ hw.identifier
  · exact hbus ▸ hw.observers
  · exact hbus ▸ hw.locks

theorem LooksUp.adds (h : w.LooksUp w' b) : w.Adds w' [] := by
  refine ⟨h.executors, ?_⟩
  rw [List.append_nil]
  refine h.recorded _ fun o ho => ?_
  cases o <;> first | rfl | cases ho

end World

/-- A post takes a number and selects its handlers. -/
def selecting (t : Thread) (b : BusId) (event : Event) : Proc μ (PostId × List Delivery × Bus) := do
  let id ← Proc.serial
  let found ← findHandlers t b event.type
  let selected := deliveries id b event found
  Proc.record t (.selected id (selected.map Delivery.invocation))
  let bus ← Proc.readBus b
  return (id, selected, bus)

/-- Then it delivers the event to them. -/
def delivering (client : Client μ) (t : Thread) (id : PostId) (selected : List Delivery) (bus : Bus) :
    Proc μ Outcome := do
  let outcome ← match bus.discipline with
    | .publisher => deliverAll client t bus.settings.policy [] selected
    | .executor e => submitAll client t e selected
  Proc.record t (.answered id outcome)
  return outcome

theorem post_eq (client : Client μ) (t : Thread) (b : BusId) (event : Event) :
    post client t b event = (selecting t b event).bind fun (id, selected, bus) =>
      delivering client t id selected bus := by
  rw [selecting]
  simp only [bind_eq, pure_eq, bind_assoc, done_bind]
  rfl

/-- The deliveries that a post makes now. -/
def World.selected (w : World μ) (b : BusId) (event : Event) : List Delivery :=
  deliveries w.serial b event ((w.bus b).roster.select (w.tableFor b event.type))

theorem exists_leads_selecting {w : World μ} {host : Host} {m : μ} (hw : w.Hosts host m) (t : Thread)
    (event : Event) : ∃ bus w', (selecting t host.bus event).Leads w
        (w.serial, w.selected host.bus event, bus) w' ∧
      bus.settings = (w.bus host.bus).settings ∧ bus.discipline = (w.bus host.bus).discipline ∧
      w'.Hosts host m ∧ w.Adds w' [] := by
  have hnumbered : ({ w with serial := w.serial + 1 } : World μ).Hosts host m :=
    hw.of_buses (by rfl) hw.memory
  obtain ⟨w', hfind, hlooks⟩ := exists_leads_findHandlers t event.type hnumbered.isOpen
  obtain ⟨tables, hsame⟩ := hlooks.bus
  have hw' := hlooks.hosts hnumbered
  have hadds : w.Adds w' [] := ⟨hlooks.executors, hlooks.adds.callbacks⟩
  let selected : Occurrence := .selected w.serial ((w.selected host.bus event).map Delivery.invocation)
  have hrecorded : (w'.record t selected).Hosts host m := hw'.of_buses (by rfl) hw'.memory
  refine ⟨w'.bus host.bus, w'.record t selected, .step rfl rfl (hfind.bind ?_), hsame ▸ rfl,
    hsame ▸ rfl, hrecorded, hadds.trans (w'.adds_record t selected)⟩
  exact (leads_record w' t selected).bind ((leads_readBus hrecorded.isOpen).bind (.done _ _))

section Posts

variable {β : Behaviour μ} {w : World μ} {host : Host} {m : μ} {event : Event}
    {results : List DeliveryResult}

/-- A post on the publisher's thread goes as far as the policy lets it. -/
theorem exists_alone_post (hw : w.Hosts host m) (hdiscipline : (w.bus host.bus).discipline = .publisher)
    (hdelivers : host.Delivers β (w.selected host.bus event) m results) (seat : Seat) :
    ∃ outcome w', (post (β.seated seat) seat.thread host.bus event).alone w = some (outcome, w') ∧
      w'.callbacks = w.callbacks ++
        (throughFirst ((w.bus host.bus).settings.policy.stops ·.reaction) results).flatMap
          host.lines := by
  obtain ⟨bus, w₁, hselect, hsettings, hsame, hw₁, hadds⟩ := exists_leads_selecting hw seat.thread event
  obtain ⟨outcome, m', hplays⟩ := hdelivers.plays_deliverAll bus.settings.policy [] seat
  obtain ⟨w₂, hdeliver, -, hadds'⟩ := hplays w₁ hw₁
  refine ⟨outcome, w₂.record seat.thread (.answered w.serial outcome), ?_, ?_⟩
  · rw [post_eq]
    refine (hselect.bind ?_).alone
    simp only [delivering, hsame, hdiscipline]
    exact hdeliver.bind ((leads_record w₂ seat.thread _).bind (.done outcome _))
  · have hanswered := w₂.adds_record seat.thread (.answered w.serial outcome)
    have hall := ((hadds.trans hadds').trans hanswered).callbacks
    rw [← hsettings]
    simpa [Occurrence.isCallback] using hall

/-- The job of a delivery on a manual executor. -/
def Manual.job (manual : Manual) (d : Delivery) : Job := .delivery d manual.name

/-- An executor without a limit stores all deliveries in their order. -/
theorem exists_alone_submitAll {e : ExecutorId} {manual : Manual} (hroom : manual.room = none)
    (client : Client μ) (t : Thread) (ds : List Delivery) {w : World μ}
    (he : w.executors[e]? = some (.manual manual)) :
    ∃ w', (submitAll client t e ds).alone w = some (.ok, w') ∧ w'.Matches w ∧
      w'.executors[e]? = some (.manual { manual with jobs := manual.jobs ++ ds.map manual.job }) := by
  induction ds generalizing w manual with
  | nil => exact ⟨w, rfl, .refl w, by simpa using he⟩
  | cons d ds ih =>
    let stored : Manual := { manual with jobs := manual.jobs ++ [manual.job d] }
    let w₁ := w.record t (.submitted d.invocation)
    let w₂ := w₁.setExecutor e (.manual stored)
    have hexecutor : w.executor e = .manual manual := by rw [World.executor, he]; rfl
    have hsame : w₁.executor e = .manual manual := hexecutor
    have hopen : e < w.executors.length := (List.getElem?_eq_some_iff.mp he).1
    have hoffer : (Executor.manual manual).offer (manual.job d) = (true, .manual stored) := by
      simp only [Executor.offer, hroom, stored]
    have hname : Job.delivery d (Executor.manual manual).view.name = manual.job d := rfl
    have hmatches : w₂.Matches w := (w₁.matches_with ..).trans (w.matches_record t rfl)
    have he₂ : w₂.executors[e]? = some (.manual stored) := List.getElem?_set_self hopen
    have hstored : stored.room = none := hroom
    obtain ⟨w', hrest, hw', he'⟩ := ih hstored he₂
    refine ⟨w', ?_, hw'.trans hmatches, ?_⟩
    · simp only [submitAll, submit, Proc.readExecutor, Proc.record, Proc.offer, Proc.atom, ask, Step.run,
        bind_eq, pure_eq, step_bind, done_bind, Proc.alone_step, Option.bind_some, hexecutor, hsame, w₁,
        hname, hoffer, if_true]
      exact hrest
    · rw [he']
      simp [stored, Manual.job]

/-- A post to such an executor is over before anything has been delivered. -/
theorem exists_alone_post_stored (hw : w.Hosts host m) {e : ExecutorId} {manual : Manual}
    (hdiscipline : (w.bus host.bus).discipline = .executor e)
    (he : w.executors[e]? = some (.manual manual)) (hroom : manual.room = none) (client : Client μ)
    (t : Thread) (event : Event) :
    ∃ w', (post client t host.bus event).alone w = some (.ok, w') ∧ w'.Hosts host m ∧
      w'.callbacks = w.callbacks ∧ w'.executors[e]? = some (.manual
        { manual with jobs := manual.jobs ++ (w.selected host.bus event).map manual.job }) := by
  obtain ⟨bus, w₁, hselect, -, hsame, hw₁, hadds⟩ := exists_leads_selecting hw t event
  obtain ⟨w₂, hsubmit, hmatches, he₂⟩ :=
    exists_alone_submitAll hroom client t (w.selected host.bus event) (hadds.executors ▸ he)
  have hanswered := (w₂.matches_record t (o := .answered w.serial .ok) rfl).trans hmatches
  refine ⟨w₂.record t (.answered w.serial .ok), ?_,
    hw₁.of_buses hanswered.buses (hanswered.memory.trans hw₁.memory), ?_, he₂⟩
  · rw [post_eq, Proc.alone_bind, hselect.alone]
    simp only [delivering, hsame, hdiscipline, bind_eq, Proc.alone_bind, hsubmit, Option.bind_some]
    rfl
  · rw [hanswered.callbacks, hadds.callbacks, List.append_nil]

/-- Later the jobs are run one after another, from the oldest on. -/
theorem Host.Completes.exists_alone_runStored {ds : List Delivery} {w : World μ} {total : List Occurrence}
    (h : host.Completes β ds w total) {e : ExecutorId} {manual : Manual} {name : String}
    (he : w.executors[e]? = some (.manual manual)) (hjobs : manual.jobs = ds.map (.delivery · name))
    (seat : Seat) {limit : Nat} (hlimit : ds.length < limit) :
    ∃ w', (runStored (β.seated seat) seat.thread e limit).alone w = some ((), w') ∧
      w'.callbacks = total := by
  obtain ⟨left, rfl⟩ := Nat.exists_eq_add_of_lt hlimit
  clear hlimit
  have hexecutor : w.executor e = .manual manual := by rw [World.executor, he]; rfl
  induction ds generalizing w manual with
  | nil =>
    refine ⟨w.setExecutor e (.manual { manual with jobs := [] }), ?_, h.callbacks_eq⟩
    simp [runStored, Proc.pick, Proc.atom, ask, Step.run, hexecutor, Executor.pick, hjobs]
  | cons d ds ih =>
    have hopen : e < w.executors.length := (List.getElem?_eq_some_iff.mp he).1
    let rest : Manual := { manual with jobs := ds.map (.delivery · name) }
    let w₁ := w.setExecutor e (.manual rest)
    have hpick : (Proc.pick e 0).alone w = some (some (.delivery d name), w₁) := by
      simp [Proc.pick, Proc.atom, ask, Step.run, hexecutor, Executor.pick, hjobs, w₁, rest]
    have hw₁ : host.Completes β (d :: ds) w₁ total := h.of_matches (w.matches_with ..)
    obtain ⟨w₂, hrun, hw₂⟩ := hw₁.exists_leads_runJob name seat
    have he₂ : w₂.executors[e]? = some (.manual rest) := by
      rw [hrun.executors]
      exact List.getElem?_set_self hopen
    have hexecutor₂ : w₂.executor e = .manual rest := by rw [World.executor, he₂]; rfl
    obtain ⟨w', hstored, hcallbacks⟩ := ih hw₂ he₂ rfl hexecutor₂
    refine ⟨w', ?_, hcallbacks⟩
    rw [List.length_cons, Nat.succ_add, runStored]
    simp only [bind_eq, Proc.alone_bind, hpick, hrun.alone, Option.bind_some]
    exact hstored

end Posts

end PubSub
