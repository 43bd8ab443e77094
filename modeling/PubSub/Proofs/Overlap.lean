import Mathlib.Data.List.Perm.Subperm
import PubSub.Proofs.Exclusion
import PubSub.Proofs.Views

/-!
# Executions of one handler on several buses

Each bus has its own lock for an exclusive handler. So two threads can be inside the same handler at
once, but only if they have come there through different buses, and each of them holds the lock of
its own bus.
-/
namespace PubSub

variable {μ α : Type} {β : Behaviour μ} {depth : Nat} {memory : μ} {body : Body μ α} {trace : Trace μ}
  {m : Machine μ α}

/-- The bus on which an object is registered. -/
def Deed.registersOn? (owner : SubscriberId) : Deed μ → Option BusId
  | .step (.enrol b owner' _) true => if owner' = owner then some b else none
  | _ => none

/-- The object has been registered on no other bus than this one. -/
def Trace.RegistersOnlyOn (trace : Trace μ) (owner : SubscriberId) (b : BusId) : Prop :=
  ∀ entry ∈ trace, ∀ b' ∈ entry.2.registersOn? owner, b' = b

instance (trace : Trace μ) (owner : SubscriberId) (b : BusId) :
    Decidable (trace.RegistersOnlyOn owner b) :=
  inferInstanceAs (Decidable (∀ entry ∈ trace, ∀ b' ∈ entry.2.registersOn? owner, b' = b))

theorem Trace.RegistersOnlyOn.eq_of_enrol {owner : SubscriberId} {b b' : BusId}
    (h : trace.RegistersOnlyOn owner b) {t : Turn} {added : List Subscription}
    (hmem : (t, .step (.enrol b' owner added) true) ∈ trace) : b' = b :=
  h _ hmem b' (if_pos rfl)

theorem Trace.Inside.exists_called {t : Turn} {name : Thread} {i : Invocation}
    (h : trace.Inside t name i) :
    ∃ object, (t, .step (.record name (.called i object)) ()) ∈ trace := by
  obtain ⟨⟨u, deed⟩, hmem, hkind⟩ := List.countP_pos_iff.mp (Nat.zero_lt_of_lt h)
  obtain ⟨hturn, hcalls⟩ := Bool.and_eq_true_iff.mp hkind
  obtain rfl := of_decide_eq_true hturn
  unfold Deed.calls at hcalls
  split at hcalls
  · obtain ⟨rfl, rfl⟩ := of_decide_eq_true hcalls
    exact ⟨_, hmem⟩
  · cases hcalls

/-- Registered handlers belong to the object that has been registered. -/
theorem Run.owner_of_enrol (h : Run β depth memory body trace m) {t : Turn} {b : BusId}
    {owner : SubscriberId} {added : List Subscription}
    (hmem : (t, .step (.enrol b owner added) true) ∈ trace) : ∀ x ∈ added, x.id.owner = owner := by
  obtain ⟨_, _, -, s, rfl, hadded⟩ := h.rounds.exists_allowed hmem
  obtain rfl := Subscriber.subscribe_eq_ok hadded
  exact s.owner_subscriptions

/-- A thread inside a handler has come there through a bus on which the handler's object was
registered. -/
theorem Run.exists_enrol (h : Run β depth memory body trace m) {t : Turn} {name : Thread} {i : Invocation}
    (hinside : trace.Inside t name i) :
    ∃ u added, (u, .step (.enrol i.bus i.subscription.id.owner added) true) ∈ trace := by
  obtain ⟨object, hcalled⟩ := hinside.exists_called
  obtain ⟨⟨u, owner, added, hmem, hx⟩, -⟩ := h.called hcalled
  exact ⟨u, added, (h.owner_of_enrol hmem _ hx).symm ▸ hmem⟩

/-- The lock that the table of an invocation's bus has for its handler is held under this name. -/
def World.LockedBy (w : World μ) (name : Thread) (i : Invocation) : Prop :=
  ∃ lock, (w.bus i.bus).locks.entries.get? i.subscription.id = some lock ∧
    ((w.bus i.bus).locks.lock lock).holder = some name

theorem World.LockedBy.unique {w : World μ} {name name' : Thread} {i i' : Invocation}
    (h : w.LockedBy name i) (h' : w.LockedBy name' i') (hbus : i.bus = i'.bus)
    (hhandler : i.subscription.id = i'.subscription.id) : name = name' := by
  obtain ⟨lock, hentry, hholder⟩ := h
  obtain ⟨lock', hentry', hholder'⟩ := h'
  rw [← hbus, ← hhandler, hentry] at hentry'
  obtain rfl := Option.some.inj hentry'
  rw [← hbus, hholder] at hholder'
  exact Option.some.inj hholder'

/-- A bus that was never opened has no locks. -/
theorem World.LockedBy.isOpen {w : World μ} {name : Thread} {i : Invocation} (h : w.LockedBy name i) :
    i.bus < w.buses.length := by
  obtain ⟨lock, hentry, -⟩ := h
  by_contra hclosed
  rw [World.bus, List.getElem?_eq_none (Nat.not_lt.mp hclosed)] at hentry
  cases hentry

section Inside

variable (h : Run β depth memory body trace m) {t t' : Turn} {name name' : Thread} {i i' : Invocation}
  (hinside : trace.Inside t name i) (hinside' : trace.Inside t' name' i')
  (hexclusive : i.subscription.concurrent = false) (hexclusive' : i'.subscription.concurrent = false)

include h hinside hexclusive

theorem Run.lockedBy : m.world.LockedBy name i := by
  have hlawful := h.protocol.1
  have hguarded := guarded hlawful
  obtain ⟨lock, hu⟩ := hinside.usage (moving hlawful) hexclusive
  exact ⟨lock, hguarded.entry t _ hu, hguarded.holder t _ hu name rfl⟩

include hinside' hexclusive'

/-- Of the threads that are inside exclusive handlers, no two go by the same name. -/
theorem Run.turn_of_name (hname : name = name') : t = t' := by
  have hlawful := h.protocol.1
  obtain ⟨lock, hu⟩ := hinside.usage (moving hlawful) hexclusive
  obtain ⟨lock', hu'⟩ := hinside'.usage (moving hlawful) hexclusive'
  exact (named hlawful).bearer_unique (holders_named hlawful name t _ hu rfl)
    (holders_named hlawful name t' _ hu' (hname ▸ rfl))

/-- Two threads that are inside the same exclusive handler through the same bus are the same. -/
theorem Run.inside_unique (hbus : i.bus = i'.bus) (hhandler : i.subscription.id = i'.subscription.id) :
    (t, name) = (t', name') := by
  have hname : name = name' := (h.lockedBy hinside hexclusive).unique
    (h.lockedBy hinside' hexclusive') hbus hhandler
  exact Prod.ext (h.turn_of_name hinside hinside' hexclusive hexclusive' hname) hname

end Inside

/-- Whatever threads post on whatever buses: two threads that are inside the same exclusive handler at
once have come there through different buses, whose locks they hold. So an object that was registered
on one bus only has no such handlers, and there are never more threads in a handler than buses. -/
theorem exclusive_handlers_overlap_only_across_buses (h : Run β depth memory body trace m) :
    (∀ t t' name name' i i', trace.Inside t name i → trace.Inside t' name' i' →
      i.subscription.concurrent = false → i'.subscription.concurrent = false →
      i.subscription.id = i'.subscription.id → (t, name) ≠ (t', name') →
      i.bus ≠ i'.bus ∧ m.world.LockedBy name i ∧ m.world.LockedBy name' i') ∧
    (∀ owner b, trace.RegistersOnlyOn owner b → ∀ t t' name name' i i', trace.Inside t name i →
      trace.Inside t' name' i' → i.subscription.concurrent = false →
      i'.subscription.concurrent = false → i.subscription.id.owner = owner →
      i.subscription.id = i'.subscription.id → t = t' ∧ name = name') ∧
    ∀ handler (threads : List (Turn × Thread)), threads.Nodup →
      (∀ x ∈ threads, ∃ i, trace.Inside x.1 x.2 i ∧ i.subscription.concurrent = false ∧
        i.subscription.id = handler) → threads.length ≤ m.world.buses.length := by
  refine ⟨fun t t' name name' i i' hinside hinside' hexclusive hexclusive' hhandler hne => ?_,
    fun owner b honly t t' name name' i i' hinside hinside' hexclusive hexclusive' howner hhandler => ?_,
    fun handler threads hdistinct hthreads => ?_⟩
  · exact ⟨fun hbus => hne (h.inside_unique hinside hinside' hexclusive hexclusive' hbus hhandler),
      h.lockedBy hinside hexclusive, h.lockedBy hinside' hexclusive'⟩
  · obtain ⟨_, _, hmem⟩ := h.exists_enrol hinside
    obtain ⟨_, _, hmem'⟩ := h.exists_enrol hinside'
    have hbus : i.bus = i'.bus := (honly.eq_of_enrol (howner ▸ hmem)).trans
      (honly.eq_of_enrol (howner ▸ hhandler ▸ hmem')).symm
    exact Prod.mk.inj (h.inside_unique hinside hinside' hexclusive hexclusive' hbus hhandler)
  · choose through hthrough using hthreads
    let buses := threads.attach.map fun x => (through x.1 x.2).bus
    have hbuses : buses.Nodup := hdistinct.attach.map_on fun x _ y _ hbus => by
      obtain ⟨hx, hexclusive, hhandler⟩ := hthrough x.1 x.2
      obtain ⟨hy, hexclusive', hhandler'⟩ := hthrough y.1 y.2
      exact Subtype.ext (h.inside_unique hx hy hexclusive hexclusive' hbus
        (hhandler.trans hhandler'.symm))
    have hopen : buses ⊆ List.range m.world.buses.length := by
      intro b hb
      obtain ⟨x, -, rfl⟩ := List.mem_map.mp hb
      obtain ⟨hx, hexclusive, -⟩ := hthrough x.1 x.2
      exact List.mem_range.mpr (h.lockedBy hx hexclusive).isOpen
    calc threads.length = buses.length := by rw [List.length_map, List.length_attach]
      _ ≤ (List.range m.world.buses.length).length := (hbuses.subperm hopen).length_le
      _ = m.world.buses.length := List.length_range

/-- A clock is registered on two buses and struck on both at the same time. Each stroke rings a bell that
is registered on the first bus only: one thread rings it and the other one waits. -/
theorem exclusive_handlers_overlap_only_across_buses_on_bell :
    let tick : Event := ⟨⟨"Tick", "Tick", 0⟩, 0, ""⟩
    let ding : Event := ⟨⟨"Ding", "Ding", 0⟩, 0, ""⟩
    let clock : Subscriber := ⟨⟨"Clock", 0⟩, "clock", [⟨"strike", false, .one (.event tick.type), ⟨0⟩⟩]⟩
    let bell : Subscriber := ⟨⟨"Bell", 1⟩, "bell", [⟨"ring", false, .one (.event ding.type), ⟨1⟩⟩]⟩
    let strike : Subscription := ⟨⟨clock.owner, 0⟩, "clock", "strike", .event tick.type, false, ⟨0⟩⟩
    let ring : Subscription := ⟨⟨bell.owner, 0⟩, "bell", "ring", .event ding.type, false, ⟨1⟩⟩
    let here : Invocation := ⟨1, 0, 0, strike, tick⟩
    let there : Invocation := ⟨3, 0, 1, strike, tick⟩
    let rings : Invocation := ⟨2, 0, 0, ring, ding⟩
    let β : Behaviour Unit := {
      handle body _ := match body.serial with
        | 0 => .step (.post 0 ding) fun _ => .done .fine
        | _ => .done .fine
      observe _ _ := .done none
      work _ := .step (.post 1 tick) fun _ => .done none }
    let body : Body Unit Unit := .step (.openBus .standard .publisher) fun b =>
      .step (.openBus .standard .publisher) fun b' => .step (.register b clock) fun _ =>
        .step (.register b' clock) fun _ => .step (.register b bell) fun _ =>
          .step (.startTask ⟨2⟩) fun _ => .step (.post b tick) fun _ => .done ()
    ∃ trace m, Run β 2 () body trace m ∧ trace.Inside (.caller 0) .main here ∧
      trace.Inside (.task 0) (.started 0) there ∧ trace.Inside (.caller 0) .main rings ∧
      trace.total (Deed.shares 0 ring.id ⟨1⟩) = 2 ∧ trace.RegistersOnlyOn bell.owner 0 ∧
      m.world.LockedBy .main here ∧ m.world.LockedBy (.started 0) there ∧
      (∀ t name i, trace.Inside t name i → i.subscription.concurrent = false →
        ring.id = i.subscription.id → .caller 0 = t ∧ .main = name) ∧
      ∀ threads : List (Turn × Thread), threads.Nodup →
        (∀ x ∈ threads, ∃ i, trace.Inside x.1 x.2 i ∧ i.subscription.concurrent = false ∧
          i.subscription.id = strike.id) → threads.length ≤ 2 := by
  intro tick ding clock bell strike ring here there rings β body
  let turns : List Turn := List.replicate 39 (.caller 0) ++ List.replicate 21 (.task 0)
  have hseen : ((Machine.start β 2 () body).play β 2 turns).any (fun (trace, m) =>
      m.world.buses.length = 2 ∧ trace.Inside (.caller 0) .main here ∧
      trace.Inside (.task 0) (.started 0) there ∧ trace.Inside (.caller 0) .main rings ∧
      trace.total (Deed.shares 0 ring.id ⟨1⟩) = 2 ∧ trace.RegistersOnlyOn bell.owner 0) = true := by
    decide +kernel
  obtain ⟨trace, m, hrun, hseen⟩ := Run.exists_of_play hseen
  obtain ⟨hbuses, hhere, hthere, hrings, hshares, honly⟩ := of_decide_eq_true hseen
  obtain ⟨hacross, hone, hcount⟩ := exclusive_handlers_overlap_only_across_buses hrun
  obtain ⟨-, hlocked, hlocked'⟩ := hacross _ _ _ _ here there hhere hthere rfl rfl rfl nofun
  exact ⟨trace, m, hrun, hhere, hthere, hrings, hshares, honly, hlocked, hlocked',
    fun t name i hinside hexclusive hid =>
      hone _ _ honly _ t _ name rings i hrings hinside rfl hexclusive rfl hid,
    fun threads hdistinct hthreads => hbuses ▸ hcount strike.id threads hdistinct hthreads⟩

/-- A clock is registered on a bus that delivers on the publisher's thread and on one that delivers
through a pool. The main thread and a worker make it strike at the same time. -/
theorem one_handler_overlaps_on_two_buses :
    let tick : Event := ⟨⟨"Tick", "Tick", 0⟩, 0, ""⟩
    let clock : Subscriber := ⟨⟨"Clock", 0⟩, "clock", [⟨"strike", false, .one .root, ⟨0⟩⟩]⟩
    let strike : Subscription := ⟨⟨clock.owner, 0⟩, "clock", "strike", .root, false, ⟨0⟩⟩
    let β : Behaviour Unit := {
      handle _ _ := .done .fine
      observe _ _ := .done none
      work _ := .done none }
    let body : Body Unit Unit := .step (.startPool ⟨1, 0, "hand"⟩) fun e =>
      .step (.openBus .standard .publisher) fun b => .step (.openBus .standard (.executor e)) fun b' =>
        .step (.register b clock) fun _ => .step (.register b' clock) fun _ =>
          .step (.post b' tick) fun _ => .step (.post b tick) fun _ => .done ()
    ∃ trace m, Run β 1 () body trace m ∧ (m.world.bus 0).discipline = .publisher ∧
      (m.world.bus 1).discipline = .executor 0 ∧ strike.concurrent = false ∧
      trace.Inside (.caller 0) .main ⟨1, 0, 0, strike, tick⟩ ∧
      trace.Inside (.worker 0 0) (.worker 0 0) ⟨0, 0, 1, strike, tick⟩ := by
  intro tick clock strike β body
  let turns : List Turn := List.replicate 40 (.caller 0) ++ List.replicate 4 (.worker 0 0)
  have hseen : ((Machine.start β 1 () body).play β 1 turns).any (fun (trace, m) =>
      (m.world.bus 0).discipline = .publisher ∧ (m.world.bus 1).discipline = .executor 0 ∧
      trace.Inside (.caller 0) .main ⟨1, 0, 0, strike, tick⟩ ∧
      trace.Inside (.worker 0 0) (.worker 0 0) ⟨0, 0, 1, strike, tick⟩) = true := by
    decide +kernel
  obtain ⟨trace, m, hrun, hseen⟩ := Run.exists_of_play hseen
  obtain ⟨hpublisher, hexecutor, hmain, hworker⟩ := of_decide_eq_true hseen
  exact ⟨trace, m, hrun, hpublisher, hexecutor, rfl, hmain, hworker⟩

end PubSub
