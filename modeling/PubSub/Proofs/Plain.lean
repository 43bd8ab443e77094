import PubSub.Proofs.Dispatch
import PubSub.Proofs.LockTable
import PubSub.Proofs.Steady

/-!
# Deliveries to plain handlers

A handler or an observer is plain if it uses nothing but the memory of the clients and comes to an end.
What a delivery to a plain handler does then depends on the memory alone: on every thread it calls the
handler with the same object, reports the same failure, and leaves the locks of the bus free.
-/
namespace PubSub

open Program

variable {μ α γ : Type}

/-- A body that comes to an end and uses nothing but the memory until then. -/
inductive Body.IsPlain : Body μ α → Prop where
  | done (a : α) : IsPlain (.done a)
  | memory (change : μ → μ) {next : μ → Body μ α} (rest : ∀ reply, IsPlain (next reply)) :
      IsPlain (.step (.memory change) next)

/-- Where the code of a client runs. -/
structure Seat where
  depth : Nat
  thread : Thread

/-- The client whose code runs there, and may perform calls. -/
def Behaviour.seated (β : Behaviour μ) (seat : Seat) : Client μ :=
  β.client (β.perform (seat.depth + 1) seat.thread)

/-- What all buses have in common that deliver in the same way, whatever else they do with a failure. -/
structure Host where
  bus : BusId
  identifier : String
  observers : List Observer

/-- Everyone is told about a failure. -/
def Host.reports (host : Host) (i : Invocation) (cause : Cause) : List Occurrence :=
  host.observers.zipIdx.map fun (observer, place) =>
    .reported i place observer (i.failure host.identifier cause)

/-- Nobody is inside an exclusive handler. -/
def Locks.IsFree (l : Locks) : Prop := ∀ id, (l.lock id).holder = none

namespace Locks

variable {l : Locks}

theorem IsFree.set (h : l.IsFree) (id : LockId) {x : Lock} (hx : x.holder = none) :
    (l.set id x).IsFree := by
  intro id'
  rw [lock_set]
  split
  · exact hx
  · exact h id'

theorem IsFree.share (h : l.IsFree) (handler : HandlerKey) : (l.share handler).2.IsFree := by
  rw [Locks.share]
  split
  · exact h.set _ (h _)
  · exact h.set _ rfl

theorem IsFree.acquire (h : l.IsFree) (id : LockId) (t : Thread) :
    ∃ l', l.acquire id t = some l' ∧ (l'.release id).IsFree := by
  refine ⟨l.set id { l.lock id with holder := some t, depth := 1 }, ?_, fun id' => ?_⟩
  · rw [Locks.acquire, h id]
  · rw [release, lock_set, if_pos rfl, if_pos (Nat.le_refl 1), lock_set]
    split
    · rfl
    · rename_i hid
      rw [lock_set, if_neg hid]
      exact h id'

theorem IsFree.unshare (h : l.IsFree) (id : LockId) : (l.unshare id).IsFree := h.set id (h id)

theorem IsFree.discard (h : l.IsFree) (handler : HandlerKey) : (l.discard handler).IsFree := by
  rw [Locks.discard]
  split
  · split
    · exact h
    · exact h
  · exact h

end Locks

/-- The bus is open. -/
structure World.Houses (w : World μ) (host : Host) (memory : μ) : Prop where
  isOpen : host.bus < w.buses.length
  identifier : (w.bus host.bus).settings.identifier = host.identifier
  observers : (w.bus host.bus).observers = host.observers
  memory : w.memory = memory

/-- The bus is open, and nobody is inside one of its exclusive handlers. -/
structure World.Hosts (w : World μ) (host : Host) (memory : μ) : Prop extends
    World.Houses w host memory where
  locks : (w.bus host.bus).locks.IsFree

/-- With this memory, wherever it runs, the program answers this, leaves this memory and adds these
callbacks. Buses stay as they are. -/
def Proc.Computes (p : Proc μ α) (m : μ) (a : α) (m' : μ) (lines : List Occurrence) : Prop :=
  ∀ w : World μ, w.memory = m → ∃ w', p.Leads w a w' ∧ w'.buses = w.buses ∧ w'.memory = m' ∧
    w.Adds w' lines

/-- The same of a program that uses a bus. -/
def Host.Plays (host : Host) (p : Proc μ α) (m : μ) (a : α) (m' : μ) (lines : List Occurrence) : Prop :=
  ∀ w : World μ, w.Hosts host m → ∃ w', p.Leads w a w' ∧ w'.Hosts host m' ∧ w.Adds w' lines

namespace World

variable {w w' w'' : World μ} {lines more : List Occurrence} {host : Host} {m : μ}

theorem bus_of_buses (hbuses : w'.buses = w.buses) (b : BusId) : w'.bus b = w.bus b := by
  rw [bus, hbuses]
  rfl

theorem Houses.of_buses (h : w.Houses host m) (hbuses : w'.buses = w.buses) {m' : μ}
    (hmemory : w'.memory = m') : w'.Houses host m' := by
  have hbus := bus_of_buses hbuses host.bus
  exact ⟨hbuses ▸ h.isOpen, hbus ▸ h.identifier, hbus ▸ h.observers, hmemory⟩

theorem Hosts.of_buses (h : w.Hosts host m) (hbuses : w'.buses = w.buses) {m' : μ}
    (hmemory : w'.memory = m') : w'.Hosts host m' :=
  ⟨h.toHouses.of_buses hbuses hmemory, bus_of_buses hbuses host.bus ▸ h.locks⟩

theorem Houses.locks_setLocks (h : w.Houses host m) (locks : Locks) :
    ((w.setLocks host.bus locks).bus host.bus).locks = locks :=
  congrArg Bus.locks (w.bus_setBus host.bus _ h.isOpen)

theorem Houses.setLocks (h : w.Houses host m) (locks : Locks) :
    (w.setLocks host.bus locks).Houses host m := by
  have hbus := w.bus_setBus host.bus { w.bus host.bus with locks } h.isOpen
  refine ⟨(w.length_setBus ..).symm ▸ h.isOpen, ?_, ?_, h.memory⟩
  · exact (congrArg (fun bus : Bus => bus.settings.identifier) hbus).trans h.identifier
  · exact (congrArg Bus.observers hbus).trans h.observers

theorem Houses.setLocks_free (h : w.Houses host m) {locks : Locks} (hfree : locks.IsFree) :
    (w.setLocks host.bus locks).Hosts host m :=
  ⟨h.setLocks locks, (h.locks_setLocks locks).symm ▸ hfree⟩

/-- Locks are nothing to the callbacks. -/
theorem adds_setLocks (w : World μ) (b : BusId) (locks : Locks) : w.Adds (w.setLocks b locks) [] :=
  ⟨rfl, (List.append_nil _).symm⟩

end World

section Computes

variable {host : Host} {p : Proc μ α} {f : α → Proc μ γ} {m m' m'' : μ} {a : α} {b : γ}
  {lines more : List Occurrence}

theorem computes_done (a : α) (m : μ) : Proc.Computes (.done a) m a m [] := fun w hw =>
  ⟨w, .done a w, rfl, hw, .refl w⟩

theorem Proc.Computes.bind (h : p.Computes m a m' lines) (hf : (f a).Computes m' b m'' more) :
    Proc.Computes (p.bind f) m b m'' (lines ++ more) := by
  intro w hw
  obtain ⟨w', hrun, hbuses, hmemory, hadds⟩ := h w hw
  obtain ⟨w'', hrun', hbuses', hmemory', hadds'⟩ := hf w' hmemory
  exact ⟨w'', hrun.bind hrun', hbuses'.trans hbuses, hmemory', hadds.trans hadds'⟩

theorem computes_record (t : Thread) (o : Occurrence) (m : μ) :
    (Proc.record t o).Computes m () m ([o].filter Occurrence.isCallback) := fun w hw =>
  ⟨w.record t o, leads_record w t o, rfl, hw, w.adds_record t o⟩

theorem Proc.Computes.plays (h : p.Computes m a m' lines) : host.Plays p m a m' lines := by
  intro w hw
  obtain ⟨w', hrun, hbuses, hmemory, hadds⟩ := h w hw.memory
  exact ⟨w', hrun, hw.of_buses hbuses hmemory, hadds⟩

theorem plays_done (a : α) (m : μ) : host.Plays (.done a) m a m [] := (computes_done a m).plays

theorem Host.Plays.bind (h : host.Plays p m a m' lines) (hf : host.Plays (f a) m' b m'' more) :
    host.Plays (p.bind f) m b m'' (lines ++ more) := by
  intro w hw
  obtain ⟨w', hrun, hw', hadds⟩ := h w hw
  obtain ⟨w'', hrun', hw'', hadds'⟩ := hf w' hw'
  exact ⟨w'', hrun.bind hrun', hw'', hadds.trans hadds'⟩

theorem plays_readBus_bind {f : Bus → Proc μ γ} (hf : ∀ bus : Bus,
      bus.settings.identifier = host.identifier → bus.observers = host.observers →
      host.Plays (f bus) m b m' lines) :
    host.Plays ((Proc.readBus host.bus).bind f) m b m' lines := by
  intro w hw
  obtain ⟨w', hrun, hrest⟩ := hf _ hw.identifier hw.observers w hw
  exact ⟨w', (leads_readBus hw.isOpen).bind hrun, hrest⟩

/-- A plain body does the same wherever it runs. -/
theorem Body.IsPlain.exists_computes {body : Body μ α} (h : body.IsPlain) (β : Behaviour μ) (m : μ) :
    ∃ a m', ∀ seat : Seat,
      Proc.Computes (body.expand (β.perform (seat.depth + 1) seat.thread)) m a m' [] := by
  induction h generalizing m with
  | done a => exact ⟨a, m, fun _ => computes_done a m⟩
  | @memory change next rest ih =>
    obtain ⟨a, m', hcomputes⟩ := ih m (change m)
    refine ⟨a, m', fun seat w hw => ?_⟩
    obtain ⟨w', hrun, hbuses, hmemory, hadds⟩ := hcomputes seat { w with memory := change m } rfl
    subst hw
    exact ⟨w', .step rfl rfl hrun, hbuses, hmemory, hadds.executors, hadds.callbacks⟩

end Computes

/-- The call of the handler, if the route takes the event there. -/
def Delivery.calls (d : Delivery) : List Occurrence :=
  (d.route.follow d.invocation.event d.invocation.subscription.topic).toList.map
    (.called d.invocation)

/-- Whoever gives back a lock that it holds alone leaves all locks free. -/
theorem exists_leads_leave {host : Host} {w : World μ} {m : μ} {lock : LockId} (h : w.Houses host m)
    (hfree : ((w.bus host.bus).locks.release lock).IsFree) (s : Subscription) (a : α) :
    ∃ w', Proc.Leads (do
        Proc.release host.bus lock
        Proc.unshare host.bus lock
        let bus ← Proc.readBus host.bus
        if bus.roster.contains s.id.owner then
          return a
        else
          Proc.discard host.bus s.id
          return a) w a w' ∧
      w'.Hosts host m ∧ w.Adds w' [] := by
  have hreleased := h.setLocks_free hfree
  have hunshared := hreleased.toHouses.setLocks_free (hreleased.locks.unshare lock)
  generalize hw₁ : w.setLocks host.bus ((w.bus host.bus).locks.release lock) = w₁ at hreleased hunshared
  generalize hw₂ : w₁.setLocks host.bus ((w₁.bus host.bus).locks.unshare lock) = w₂ at hunshared
  have hadds : w.Adds w₂ [] := by
    subst hw₁ hw₂
    exact (w.adds_setLocks ..).trans (World.adds_setLocks ..)
  have hback : ∀ {f : Bus → Proc μ α} {w' : World μ}, (f (w₂.bus host.bus)).Leads w₂ a w' →
      Proc.Leads (do
        Proc.release host.bus lock
        Proc.unshare host.bus lock
        f (← Proc.readBus host.bus)) w a w' := fun hrest =>
    .step rfl (by rw [Step.run, hw₁]) (.step rfl (by rw [Step.run, hw₂])
      ((leads_readBus hunshared.isOpen).bind hrest))
  cases hcontains : (w₂.bus host.bus).roster.contains s.id.owner with
  | true =>
    refine ⟨w₂, hback ?_, hunshared, hadds⟩
    rw [hcontains]
    exact .done a w₂
  | false =>
    refine ⟨_, hback ?_, hunshared.toHouses.setLocks_free (hunshared.locks.discard s.id), ?_⟩
    · rw [hcontains]
      exact .step rfl rfl (.done a _)
    · exact hadds.trans (World.adds_setLocks ..)

/-- A plain handler runs under its lock as it would run without. -/
theorem Proc.Computes.exclusively {host : Host} {p : Proc μ α} {m m' : μ} {a : α}
    {lines : List Occurrence} (h : p.Computes m a m' lines) (t : Thread) (s : Subscription) :
    host.Plays (exclusively t host.bus s p) m a m' lines := by
  cases hconcurrent : s.concurrent with
  | true =>
    rw [PubSub.exclusively, hconcurrent, if_pos rfl]
    exact h.plays
  | false =>
    intro w hw
    cases hlock : (w.bus host.bus).locks.share s.id with
    | mk lock locks =>
    have hfree : locks.IsFree := by
      have hshared := hw.locks.share s.id
      rwa [hlock] at hshared
    have hshared := hw.toHouses.setLocks_free hfree
    have hshare : (Proc.share host.bus s.id).Leads w lock (w.setLocks host.bus locks) := by
      refine .step rfl ?_ (.done lock _)
      rw [Step.run, World.getElem?_buses hw.isOpen, Option.map_some, hlock]
    have hadds := w.adds_setLocks host.bus locks
    generalize w.setLocks host.bus locks = w₁ at hshared hshare hadds
    obtain ⟨locks', hacquired, hreleased⟩ := hshared.locks.acquire lock t
    have hacquire : (Proc.acquire host.bus lock t).Leads w₁ () (w₁.setLocks host.bus locks') := by
      refine .step rfl ?_ (.done () _)
      rw [Step.run, hacquired]
      rfl
    have hheld := hshared.toHouses.setLocks locks'
    have hlocks := hshared.toHouses.locks_setLocks locks'
    have hadds' := w₁.adds_setLocks host.bus locks'
    generalize w₁.setLocks host.bus locks' = w₂ at hacquire hheld hlocks hadds'
    obtain ⟨w₃, hrun, hbuses, hmemory, hadds₃⟩ := h w₂ hheld.memory
    have hfree₃ : ((w₃.bus host.bus).locks.release lock).IsFree := by
      rwa [World.bus_of_buses hbuses, hlocks]
    obtain ⟨w', hleave, hw', hadds₄⟩ := exists_leads_leave (hheld.of_buses hbuses hmemory) hfree₃ s a
    refine ⟨w', ?_, hw', ?_⟩
    · rw [PubSub.exclusively, hconcurrent, if_neg Bool.false_ne_true]
      exact hshare.bind (hacquire.bind (hrun.bind hleave))
    · have hall := ((hadds.trans hadds').trans hadds₃).trans hadds₄
      rwa [List.append_nil] at hall

variable {β : Behaviour μ} {host : Host}

theorem exists_plays_runHandler {d : Delivery}
    (hplain : ∀ object, (β.handle d.invocation.subscription.body object).IsPlain)
    (hbus : d.invocation.bus = host.bus) (m : μ) :
    ∃ r m', ∀ seat : Seat,
      host.Plays (runHandler (β.seated seat) seat.thread d) m r m' d.calls := by
  obtain ⟨i, route⟩ := d
  have hbus' : i.bus = host.bus := hbus
  cases hfollow : route.follow i.event i.subscription.topic with
  | none =>
    refine ⟨.failed (.text (refusal i.subscription.topic i.event.type)), m, fun seat => ?_⟩
    simp only [runHandler, Delivery.calls, hfollow, Option.toList_none, List.map_nil, hbus']
    exact (computes_done _ m).exclusively _ _
  | some object =>
    obtain ⟨r, m', hcomputes⟩ := (hplain object).exists_computes β m
    refine ⟨r, m', fun seat => ?_⟩
    simp only [runHandler, Delivery.calls, hfollow, Option.toList_some, List.map_singleton, hbus']
    refine Proc.Computes.exclusively ?_ _ _
    have hcalled := computes_record seat.thread (.called i object) m
    have hended := (computes_record seat.thread (.ended i r) m').bind (f := fun _ => .done r)
      (computes_done r m')
    exact hcalled.bind ((hcomputes seat).bind hended)

/-- The observer is plain, whatever it is told. -/
def Observer.IsPlain (β : Behaviour μ) : Observer → Prop
  | .log => True
  | .custom _ _ body => ∀ failure, (β.observe body failure).IsPlain

theorem exists_computes_tellOne {observer : Observer} (hplain : observer.IsPlain β) (identifier : String)
    (i : Invocation) (failure : Failure) (place : Nat) (m : μ) :
    ∃ m', ∀ seat : Seat,
      (tellOne (β.seated seat) seat.thread identifier i failure place observer).Computes m () m'
        [.reported i place observer failure] := by
  cases observer with
  | log =>
    exact ⟨m, fun seat => (computes_record seat.thread (.reported i place .log failure) m).bind
      (computes_done _ m)⟩
  | custom label name body =>
    obtain ⟨payload?, m', hcomputes⟩ := (hplain failure).exists_computes β m
    refine ⟨m', fun seat => ?_⟩
    have htold := computes_record seat.thread (.reported i place (.custom label name body) failure) m
    refine htold.bind ((hcomputes seat).bind (?_ : Proc.Computes _ m' () m' []))
    cases payload? with
    | none => exact computes_done _ m'
    | some payload => exact computes_record seat.thread (.logged _) m'

theorem exists_computes_tellAll (identifier : String) (i : Invocation) (failure : Failure)
    (items : List (Observer × Nat)) (hplain : ∀ x ∈ items, x.1.IsPlain β) (m : μ) :
    ∃ m', ∀ seat : Seat,
      Proc.Computes (Program.forEach items fun (observer, place) =>
        tellOne (β.seated seat) seat.thread identifier i failure place observer) m () m'
        (items.map fun (observer, place) => .reported i place observer failure) := by
  induction items generalizing m with
  | nil => exact ⟨m, fun _ => computes_done () m⟩
  | cons x items ih =>
    obtain ⟨hx, hitems⟩ := List.forall_mem_cons.mp hplain
    obtain ⟨m₁, hfirst⟩ := exists_computes_tellOne hx identifier i failure x.2 m
    obtain ⟨m', hrest⟩ := ih hitems m₁
    exact ⟨m', fun seat => (hfirst seat).bind (hrest seat)⟩

theorem exists_plays_tellAll (hplain : ∀ observer ∈ host.observers, observer.IsPlain β) {i : Invocation}
    (hbus : i.bus = host.bus) (cause : Cause) (m : μ) :
    ∃ m', ∀ seat : Seat,
      host.Plays (tellAll (β.seated seat) seat.thread i cause) m (i.failure host.identifier cause) m'
        (host.reports i cause) := by
  obtain ⟨m', hcomputes⟩ := exists_computes_tellAll host.identifier i (i.failure host.identifier cause)
    host.observers.zipIdx (fun x hx => hplain x.1 (List.fst_mem_of_mem_zipIdx hx)) m
  refine ⟨m', fun seat => ?_⟩
  rw [tellAll, hbus]
  refine plays_readBus_bind fun bus hidentifier hobservers => ?_
  rw [hidentifier, hobservers]
  have htold := (hcomputes seat).bind (f := fun _ => .done (i.failure host.identifier cause))
    (computes_done _ m')
  rw [List.append_nil] at htold
  exact htold.plays

end PubSub
