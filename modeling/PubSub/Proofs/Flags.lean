import PubSub.Proofs.Reentry

/-!
# What the flags of subscriptions change

On one thread nothing depends on which handlers are exclusive. Two runs that differ by the flags of
subscriptions go the same way, up to these flags.
-/
namespace PubSub

variable {μ : Type}

/-- The subscription as it is without its flag. -/
def Subscription.bare (s : Subscription) : Subscription := { s with concurrent := false }

def Handler.bare (h : Handler) : Handler := { h with concurrent := false }

def Subscriber.bare (s : Subscriber) : Subscriber := { s with handlers := s.handlers.map Handler.bare }

def Selection.bare (s : Selection) : Selection := { s with subscription := s.subscription.bare }

def Invocation.bare (i : Invocation) : Invocation := { i with subscription := i.subscription.bare }

def Delivery.bare (d : Delivery) : Delivery := { d with invocation := d.invocation.bare }

/-- Subscriptions that are the same without their flags differ by their flags. -/
theorem Subscription.exists_of_bare {s s' : Subscription} (h : s.bare = s'.bare) :
    ∃ concurrent, s' = { s with concurrent } := by
  obtain ⟨id, subscriber, method, topic, concurrent, body⟩ := s
  obtain ⟨id', subscriber', method', topic', concurrent', body'⟩ := s'
  cases h
  exact ⟨concurrent', rfl⟩

theorem Invocation.exists_of_bare {i i' : Invocation} (h : i.bare = i'.bare) :
    ∃ concurrent, i' = { i with subscription := { i.subscription with concurrent } } := by
  obtain ⟨post, place, bus, s, event⟩ := i
  obtain ⟨post', place', bus', s', event'⟩ := i'
  simp only [Invocation.bare, Invocation.mk.injEq] at h
  obtain ⟨rfl, rfl, rfl, hs, rfl⟩ := h
  obtain ⟨concurrent, rfl⟩ := Subscription.exists_of_bare hs
  exact ⟨concurrent, rfl⟩

theorem Delivery.exists_of_bare {d d' : Delivery} (h : d.bare = d'.bare) : ∃ concurrent,
    d' = { d with invocation := { d.invocation with
      subscription := { d.invocation.subscription with concurrent } } } := by
  obtain ⟨i, route⟩ := d
  obtain ⟨i', route'⟩ := d'
  obtain ⟨hi, rfl⟩ := Delivery.mk.inj h
  obtain ⟨concurrent, rfl⟩ := Invocation.exists_of_bare hi
  exact ⟨concurrent, rfl⟩

mutual

def Answer.bare : Answer → Answer
  | .subscriptions values => .subscriptions (values.map Subscription.bare)
  | .each answers => .each (Answer.bareAll answers)
  | answer => answer

def Answer.bareAll : List Answer → List Answer
  | [] => []
  | answer :: rest => answer.bare :: Answer.bareAll rest

end

def Occurrence.bare : Occurrence → Occurrence
  | .selected id matched => .selected id (matched.map Invocation.bare)
  | .called i object => .called i.bare object
  | .ended i r => .ended i.bare r
  | .reported i place observer failure => .reported i.bare place observer failure
  | .submitted i => .submitted i.bare
  | .dropped i executor => .dropped i.bare executor
  | .settled i => .settled i.bare
  | .nested operation answer => .nested operation answer.bare
  | o => o

def Entry.bare (e : Entry) : Entry := { e with occurrence := e.occurrence.bare }

/-- The map with other values for its keys. -/
def Keyed.map {κ ν ν' : Type} (f : ν → ν') (m : Keyed κ ν) : Keyed κ ν' :=
  ⟨m.pairs.map fun p => (p.1, f p.2)⟩

def Roster.bare (r : Roster) : Roster :=
  ⟨r.byTopic.map (·.map Subscription.bare), r.byOwner.map (·.map Subscription.bare)⟩

def BusView.bare (view : BusView) : BusView := { view with roster := view.roster.bare }

namespace Keyed

variable {κ ν ν' : Type} [DecidableEq κ] (f : ν → ν') (m : Keyed κ ν)

theorem get?_map (k : κ) : (m.map f).get? k = (m.get? k).map f := by
  obtain ⟨l⟩ := m
  induction l with
  | nil => rfl
  | cons p l ih =>
    unfold map get? at *
    rw [List.map_cons, List.find?_cons, List.find?_cons]
    by_cases hp : p.1 = k
    · simp only [hp, decide_true, Option.map_some]
    · simp only [hp, decide_false]
      exact ih

theorem contains_map (k : κ) : (m.map f).contains k = m.contains k := by
  rw [contains_eq_isSome, contains_eq_isSome, get?_map, Option.isSome_map]

theorem map_insert (k : κ) (v : ν) : (m.insert k v).map f = (m.map f).insert k (f v) := by
  unfold insert
  rw [contains_map]
  split
  · simp only [map, List.map_map]
    congr 1
    refine List.map_congr_left fun p _ => ?_
    dsimp only [Function.comp_apply]
    split <;> rfl
  · simp only [map, List.map_append, List.map_singleton]

theorem map_erase (k : κ) : (m.erase k).map f = (m.map f).erase k := by
  simp only [erase, map, List.filter_map]
  rfl

end Keyed

namespace Roster

variable (r : Roster)

theorem map_addByTopic (found : Keyed Topic (List Subscription)) (s : Subscription) :
    (addByTopic found s).map (·.map Subscription.bare) =
      addByTopic (found.map (·.map Subscription.bare)) s.bare := by
  have htopic : s.bare.topic = s.topic := rfl
  rw [addByTopic, addByTopic, Keyed.map_insert, Keyed.get?_map, List.map_append, htopic]
  cases found.get? s.topic <;> rfl

theorem map_dropByTopic (found : Keyed Topic (List Subscription)) (s : Subscription) :
    (dropByTopic found s).map (·.map Subscription.bare) =
      dropByTopic (found.map (·.map Subscription.bare)) s.bare := by
  have htopic : s.bare.topic = s.topic := rfl
  rw [dropByTopic, dropByTopic, Keyed.get?_map, htopic]
  cases found.get? s.topic with
  | none => rfl
  | some present =>
    have hkept : (present.map Subscription.bare).filter (·.id ≠ s.bare.id) =
        (present.filter (·.id ≠ s.id)).map Subscription.bare := by
      rw [List.filter_map]
      rfl
    simp only [Option.map_some, hkept]
    cases present.filter (·.id ≠ s.id) with
    | nil => exact Keyed.map_erase ..
    | cons x kept => exact Keyed.map_insert ..

theorem map_foldl {change : Keyed Topic (List Subscription) → Subscription →
      Keyed Topic (List Subscription)}
    (hchange : ∀ found s, (change found s).map (·.map Subscription.bare) =
      change (found.map (·.map Subscription.bare)) s.bare)
    (found : Keyed Topic (List Subscription)) (subscriptions : List Subscription) :
    (subscriptions.foldl change found).map (·.map Subscription.bare) =
      (subscriptions.map Subscription.bare).foldl change (found.map (·.map Subscription.bare)) := by
  induction subscriptions generalizing found with
  | nil => rfl
  | cons s rest ih =>
    rw [List.foldl_cons, ih, hchange]
    rfl

theorem contains_bare (owner : SubscriberId) : r.bare.contains owner = r.contains owner :=
  Keyed.contains_map ..

theorem on_bare (topic : Topic) : r.bare.on topic = (r.on topic).map Subscription.bare := by
  rw [on, bare, Keyed.get?_map, on]
  cases r.byTopic.get? topic <;> rfl

theorem enrol_bare (owner : SubscriberId) (added : List Subscription) :
    r.bare.enrol owner (added.map Subscription.bare) = (r.enrol owner added).map bare := by
  rw [enrol, contains_bare, enrol]
  split
  · rfl
  · rw [Option.map_some, bare, bare, map_foldl map_addByTopic, Keyed.map_insert]

theorem dismiss_bare (owner : SubscriberId) : r.bare.dismiss owner =
    (r.dismiss owner).map fun result => (result.1.map Subscription.bare, result.2.bare) := by
  rw [dismiss, dismiss, bare, Keyed.get?_map, Option.map_map, Option.map_map]
  congr 1
  funext removed
  simp only [Function.comp_apply, bare, map_foldl map_dropByTopic, Keyed.map_erase]

theorem select_bare (table : Table) : r.bare.select table = (r.select table).map Selection.bare := by
  rw [select, select, List.map_flatMap]
  refine List.flatMap_congr fun entry _ => ?_
  rw [on_bare, List.map_map, List.map_map]
  rfl

end Roster

namespace Subscriber

variable (s : Subscriber)

theorem subscriptions_bare : s.bare.subscriptions = s.subscriptions.map Subscription.bare := by
  rw [subscriptions, subscriptions, List.map_filterMap, bare, List.zipIdx_map, List.filterMap_map]
  congr 1
  funext ⟨h, place⟩
  simp only [Function.comp_apply, Prod.map, Handler.bare, subscription?, id]
  cases h.parameters <;> rfl

theorem invalid?_bare : s.bare.invalid? = s.invalid? := by
  rw [invalid?, invalid?, bare, List.findSome?_map]
  rfl

theorem subscribe_bare : s.bare.subscribe = s.subscribe.map (·.map Subscription.bare) := by
  have hempty : s.bare.handlers.isEmpty = s.handlers.isEmpty := List.isEmpty_map ..
  rw [subscribe, subscribe, invalid?_bare, subscriptions_bare, hempty]
  split
  · rfl
  · split <;> rfl

end Subscriber

theorem bare_deliveries (id : PostId) (b : BusId) (event : Event) (found : List Selection) :
    (deliveries id b event found).map Delivery.bare =
      deliveries id b event (found.map Selection.bare) := by
  rw [deliveries, deliveries, List.zipIdx_map, List.map_map, List.map_map]
  rfl

/-- The buses differ by the flags of subscriptions and by locks, which one thread alone uses. -/
structure Bus.Twins (t : Thread) (bus bus' : Bus) : Prop where
  settings : bus.settings = bus'.settings
  discipline : bus.discipline = bus'.discipline
  roster : bus.roster.bare = bus'.roster.bare
  tables : bus.tables = bus'.tables
  sole : bus.locks.IsSole t
  sole' : bus'.locks.IsSole t

/-- The worlds differ by the flags of subscriptions, by locks and by the time. All buses deliver on the
publisher's thread. -/
structure World.Twins (t : Thread) (v w : World μ) : Prop where
  declarations : v.declarations = w.declarations
  length : v.buses.length = w.buses.length
  buses : ∀ b, (v.bus b).Twins t (w.bus b)
  publisher : ∀ b, (v.bus b).discipline = .publisher
  executors : v.executors = w.executors
  tasks : v.tasks = w.tasks
  history : v.history.map Entry.bare = w.history.map Entry.bare
  serial : v.serial = w.serial
  memory : v.memory = w.memory

namespace World.Twins

variable {t : Thread} {v w : World μ}

theorem symm (h : v.Twins t w) : w.Twins t v where
  declarations := h.declarations.symm
  length := h.length.symm
  buses b :=
    have hbus := h.buses b
    ⟨hbus.settings.symm, hbus.discipline.symm, hbus.roster.symm, hbus.tables.symm, hbus.sole', hbus.sole⟩
  publisher b := (h.buses b).discipline.symm.trans (h.publisher b)
  executors := h.executors.symm
  tasks := h.tasks.symm
  history := h.history.symm
  serial := h.serial.symm
  memory := h.memory.symm

theorem pass (h : v.Twins t w) (time time' : Nat) :
    World.Twins t { v with time } { w with time := time' } where
  declarations := h.declarations
  length := h.length
  buses := h.buses
  publisher := h.publisher
  executors := h.executors
  tasks := h.tasks
  history := h.history
  serial := h.serial
  memory := h.memory

theorem record (h : v.Twins t w) {o o' : Occurrence} (ho : o.bare = o'.bare) :
    (v.record t o).Twins t (w.record t o') where
  declarations := h.declarations
  length := h.length
  buses := h.buses
  publisher := h.publisher
  executors := h.executors
  tasks := h.tasks
  history := congrArg₂ List.cons (congrArg (Entry.mk t) ho) h.history
  serial := h.serial
  memory := h.memory

theorem recordAll (h : v.Twins t w) (l : List Occurrence) :
    (v.recordAll t l).Twins t (w.recordAll t l) := by
  induction l generalizing v w with
  | nil => exact h
  | cons o l ih => exact ih (h.record rfl)

/-- One bus is changed alike. -/
theorem setBus (h : v.Twins t w) {b : BusId} {bus bus' : Bus} (hbus : bus.Twins t bus')
    (hpublisher : bus.discipline = .publisher) : (v.setBus b bus).Twins t (w.setBus b bus') where
  declarations := h.declarations
  length := by rw [World.length_setBus, World.length_setBus, h.length]
  buses b' := by
    rw [World.bus_setBus_eq, World.bus_setBus_eq, h.length]
    split
    · exact hbus
    · exact h.buses b'
  publisher b' := by
    rw [World.bus_setBus_eq]
    split
    · exact hpublisher
    · exact h.publisher b'
  executors := h.executors
  tasks := h.tasks
  history := h.history
  serial := h.serial
  memory := h.memory

theorem openBus (h : v.Twins t w) (settings : BusSettings) :
    World.Twins t { v with buses := v.buses ++ [.fresh settings .publisher] }
      { w with buses := w.buses ++ [.fresh settings .publisher] } where
  declarations := h.declarations
  length := by rw [List.length_append, List.length_append, h.length]
  buses b := by
    rw [bus_append, bus_append, h.length]
    split
    · exact ⟨rfl, rfl, rfl, rfl, Locks.isSole_empty t, Locks.isSole_empty t⟩
    · exact h.buses b
  publisher b := by
    rw [bus_append]
    split
    · rfl
    · exact h.publisher b
  executors := h.executors
  tasks := h.tasks
  history := h.history
  serial := h.serial
  memory := h.memory

/-- The locks of a bus of one of the worlds change. -/
theorem setLocks (h : v.Twins t w) (b : BusId) {locks : Locks} (hsole : locks.IsSole t) :
    (v.setLocks b locks).Twins t w where
  declarations := h.declarations
  length := (World.length_setBus ..).trans h.length
  buses b' := by
    rw [World.setLocks, World.bus_setBus_eq]
    split
    · rename_i hb
      obtain ⟨rfl, -⟩ := hb
      have hbus := h.buses b
      exact ⟨hbus.settings, hbus.discipline, hbus.roster, hbus.tables, hsole, hbus.sole'⟩
    · exact h.buses b'
  publisher b' := by
    rw [World.setLocks, World.bus_setBus_eq]
    split
    · rename_i hb
      exact hb.1 ▸ h.publisher b
    · exact h.publisher b'
  executors := h.executors
  tasks := h.tasks
  history := h.history
  serial := h.serial
  memory := h.memory

end World.Twins

end PubSub
