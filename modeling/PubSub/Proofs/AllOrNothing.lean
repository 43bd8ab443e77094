import PubSub.Proofs.Course
import PubSub.Proofs.HistoryIndependence
import PubSub.Proofs.Registration
import PubSub.Proofs.Resolution

/-!
# Registration takes all or nothing

What registration answers is decided by the declarations alone. An object that is absent comes to hold
one subscription for each of them; in every other case nobody can tell that the call was made. Other
threads see the whole change or none of it.
-/
namespace PubSub

open Program

variable {μ α : Type}

namespace Handler

/-- The handler takes exactly one parameter. -/
def IsUnary (h : Handler) : Prop := ∃ topic, h.parameters = .one topic

/-- What is wrong with the declaration, if it does not take exactly one parameter. -/
def fault? (h : Handler) : Option (String × Nat) :=
  match h.parameters with
  | .one _ => none
  | .count params => some (h.name, params)

variable {h : Handler}

theorem fault?_eq_none_iff : h.fault? = none ↔ h.IsUnary := by
  rw [fault?, IsUnary]
  cases h.parameters with
  | one topic => exact ⟨fun _ => ⟨topic, rfl⟩, fun _ => rfl⟩
  | count params =>
    refine iff_of_false (fun he => by cases he) ?_
    rintro ⟨topic, he⟩
    cases he

theorem fault?_eq_some_iff {method : String} {params : Nat} :
    h.fault? = some (method, params) ↔ h.name = method ∧ h.parameters = .count params := by
  rw [fault?]
  cases h.parameters with
  | one topic =>
    refine iff_of_false (fun he => by cases he) ?_
    rintro ⟨-, he⟩
    cases he
  | count params' => simp only [Option.some.injEq, Prod.mk.injEq, Parameters.count.injEq]

end Handler

namespace Subscriber

/-- In the order of declaration, this is the first handler that does not take exactly one parameter. -/
def FirstInvalid (s : Subscriber) (method : String) (params : Nat) : Prop :=
  ∃ before h after, s.handlers = before ++ h :: after ∧ (∀ x ∈ before, x.IsUnary) ∧
    h.name = method ∧ h.parameters = .count params

/-- What registration of an object answers. -/
structure Judged (s : Subscriber) (answer : Except BusError Unit) : Prop where
  noHandlers_iff : answer = .error (.noHandlers s.name) ↔ s.handlers = []
  wrongArity_iff : ∀ method params,
    answer = .error (.wrongArity s.name method params) ↔ s.FirstInvalid method params
  ok_iff : answer = .ok () ↔ s.handlers ≠ [] ∧ ∀ h ∈ s.handlers, h.IsUnary

/-- There is one subscription for each declaration, in the same order. -/
structure Binds (s : Subscriber) (held : List Subscription) : Prop where
  length_eq : held.length = s.handlers.length
  entry : ∀ place (h : Handler), s.handlers[place]? = some h → ∃ topic, h.parameters = .one topic ∧
    held[place]? =
      some (⟨⟨s.owner, place⟩, s.name, h.name, topic, h.concurrent, h.body⟩ : Subscription)

variable {s : Subscriber}

theorem invalid?_eq_some_iff {method : String} {params : Nat} :
    s.invalid? = some (method, params) ↔ s.FirstInvalid method params := by
  have heq : s.invalid? = s.handlers.findSome? Handler.fault? := rfl
  rw [heq, List.findSome?_eq_some_iff, FirstInvalid]
  simp only [Handler.fault?_eq_none_iff, Handler.fault?_eq_some_iff]
  constructor
  · rintro ⟨before, h, after, hsplit, hfault, hbefore⟩
    exact ⟨before, h, after, hsplit, hbefore, hfault⟩
  · rintro ⟨before, h, after, hsplit, hbefore, hfault⟩
    exact ⟨before, h, after, hsplit, hfault, hbefore⟩

theorem invalid?_eq_none_iff : s.invalid? = none ↔ ∀ h ∈ s.handlers, h.IsUnary := by
  have heq : s.invalid? = s.handlers.findSome? Handler.fault? := rfl
  simp only [heq, List.findSome?_eq_none_iff, Handler.fault?_eq_none_iff]

theorem FirstInvalid.handlers_ne_nil {method : String} {params : Nat}
    (h : s.FirstInvalid method params) : s.handlers ≠ [] := by
  obtain ⟨before, x, after, hsplit, -⟩ := h
  rw [hsplit]
  exact List.append_ne_nil_of_right_ne_nil _ (List.cons_ne_nil _ _)

/-- Nothing but the declarations decides what registration answers. -/
theorem judged_subscribe (s : Subscriber) : s.Judged (s.subscribe.map fun _ => ()) := by
  rw [subscribe]
  by_cases hempty : s.handlers = []
  · rw [if_pos (List.isEmpty_iff.mpr hempty)]
    refine ⟨iff_of_true rfl hempty, fun method params => ?_, ?_⟩
    · exact iff_of_false (fun he => by cases he) fun h => h.handlers_ne_nil hempty
    · exact iff_of_false (fun he => by cases he) fun h => h.1 hempty
  rw [if_neg fun h => hempty (List.isEmpty_iff.mp h)]
  cases hinvalid : s.invalid? with
  | none =>
    have hunary := invalid?_eq_none_iff.mp hinvalid
    refine ⟨iff_of_false (fun he => by cases he) hempty, fun method params => ?_, ?_⟩
    · rw [← invalid?_eq_some_iff, hinvalid]
      exact iff_of_false (fun he => by cases he) fun he => by cases he
    · exact iff_of_true rfl ⟨hempty, hunary⟩
  | some fault =>
    refine ⟨iff_of_false (fun he => by cases he) hempty, fun method params => ?_, ?_⟩
    · rw [← invalid?_eq_some_iff, hinvalid]
      simp only [Except.map, Except.error.injEq, BusError.wrongArity.injEq, Option.some.injEq,
        Prod.ext_iff, true_and]
    · refine iff_of_false (fun he => by cases he) fun h => ?_
      rw [invalid?_eq_none_iff.mpr h.2] at hinvalid
      cases hinvalid

theorem binds_subscriptions (hunary : ∀ h ∈ s.handlers, h.IsUnary) : s.Binds s.subscriptions := by
  have hsome : ∀ x ∈ s.handlers.zipIdx, (s.subscription? x.2 x.1).isSome = true := by
    intro x hx
    obtain ⟨topic, htopic⟩ := hunary x.1 (List.fst_mem_of_mem_zipIdx hx)
    rw [subscription?, htopic]
    rfl
  have hmap : s.subscriptions.map some = s.handlers.zipIdx.map fun x => s.subscription? x.2 x.1 := by
    rw [subscriptions, List.map_filterMap_some_eq_filter_map_isSome, List.filter_eq_self]
    intro y hy
    obtain ⟨x, hx, rfl⟩ := List.mem_map.mp hy
    exact hsome x hx
  refine ⟨?_, fun place h hplace => ?_⟩
  · have hlength := congrArg List.length hmap
    simpa only [List.length_map, List.length_zipIdx] using hlength
  · obtain ⟨topic, htopic⟩ := hunary h (List.mem_of_getElem? hplace)
    refine ⟨topic, htopic, ?_⟩
    have hentry := congrArg (fun l => l[place]?) hmap
    simp only [List.getElem?_map, List.getElem?_zipIdx, hplace, Option.map_some, Nat.zero_add,
      subscription?, htopic] at hentry
    exact Option.map_injective (fun _ _ => Option.some.inj) hentry

end Subscriber

/-- The bus with another roster and without the entries of locks that nobody uses any more. -/
def Bus.pruned (bus : Bus) (roster : Roster) : Bus :=
  { bus with roster, locks := bus.locks.prune roster.contains }

@[simp] theorem Bus.roster_pruned (bus : Bus) (roster : Roster) : (bus.pruned roster).roster = roster :=
  rfl

section Alone

variable {w : World μ} {b : BusId} {s : Subscriber} {subscriptions : List Subscription}

theorem register_alone_rejected (t : Thread) (hb : b < w.buses.length) {error : BusError}
    (hs : s.subscribe = .error error) :
    ∃ w', (register t b s).alone w = some (.error error, w') ∧ w'.blank = w.blank := by
  have hbus := w.getElem?_buses hb
  simp [register, Proc.record, Proc.readBus, Proc.log, Proc.atom, ask, Step.run, hs, hbus]

theorem register_alone_present (t : Thread) (hb : b < w.buses.length)
    (hs : s.subscribe = .ok subscriptions)
    (henrol : (w.bus b).roster.enrol s.owner subscriptions = none) :
    ∃ w', (register t b s).alone w = some (.ok (), w') ∧ w'.blank = w.blank := by
  have hbus := w.getElem?_buses hb
  simp [register, Proc.record, Proc.readBus, Proc.log, Proc.enrol, Proc.atom, ask, Step.run, hs,
    hbus, henrol]

theorem register_alone_absent (t : Thread) (hb : b < w.buses.length)
    (hs : s.subscribe = .ok subscriptions) {roster : Roster}
    (henrol : (w.bus b).roster.enrol s.owner subscriptions = some roster) :
    ∃ w', (register t b s).alone w = some (.ok (), w') ∧
      w'.blank = (w.setBus b { w.bus b with roster }).blank := by
  have hbus := w.getElem?_buses hb
  simp only [register, Proc.record, Proc.readBus, Proc.log, Proc.enrol, Proc.atom, ask, Step.run,
    hs, henrol, hbus, bind_eq, pure_eq, step_bind, done_bind, Proc.alone_step, Proc.alone_done,
    Option.bind_some, Option.map_some, World.buses_record, World.bus_record, if_true]
  exact ⟨_, rfl, rfl⟩

theorem unregister_alone_absent (t : Thread) {owner : SubscriberId} (name : String)
    (hdismiss : (w.bus b).roster.dismiss owner = none) :
    (unregister t b owner name).alone w = some (.error (.notRegistered name), w) := by
  simp [unregister, Proc.dismiss, Proc.atom, ask, Step.run, hdismiss]

theorem unregister_alone_present (t : Thread) (hb : b < w.buses.length) {owner : SubscriberId}
    (name : String) {removed : List Subscription} {roster : Roster}
    (hdismiss : (w.bus b).roster.dismiss owner = some (removed, roster)) :
    ∃ w', (unregister t b owner name).alone w = some (.ok (), w') ∧
      w'.blank = (w.setBus b ((w.bus b).pruned roster)).blank := by
  simp only [unregister, Proc.dismiss, Proc.prune, Proc.readBus, Proc.log, Proc.record, Proc.atom,
    ask, Step.run, hdismiss, bind_eq, pure_eq, step_bind, done_bind, Proc.alone_step, Proc.alone_done,
    Option.bind_some, World.setLocks, World.bus_setBus _ _ _ hb]
  rw [World.getElem?_buses (by rwa [World.length_setBus, World.length_setBus])]
  refine ⟨_, rfl, ?_⟩
  rw [World.blank_record, World.setBus, World.setBus, List.set_set]
  rfl

end Alone

namespace World

/-- The object has come to be registered on the bus, with one subscription for each declaration. All
other objects keep theirs, and nothing else has changed but the history. -/
structure Enrols (w w' : World μ) (b : BusId) (s : Subscriber) : Prop where
  holds : ∃ held, s.Binds held ∧ (w'.bus b).roster.byOwner.get? s.owner = some held ∧
    (∀ topic, (w'.bus b).roster.on topic =
      (w.bus b).roster.on topic ++ held.filter (·.topic = topic)) ∧
    ∀ topic, ((w'.bus b).roster.on topic).filter (·.id.owner = s.owner) =
      held.filter (·.topic = topic)
  others : ∀ owner, owner ≠ s.owner →
    (w'.bus b).roster.byOwner.get? owner = (w.bus b).roster.byOwner.get? owner
  rest : w'.blank = (w.setBus b { w.bus b with roster := (w'.bus b).roster }).blank

/-- The object is gone from the bus, with its subscriptions and the entries of locks that no longer
serve anyone. All other objects keep theirs, and nothing else has changed but the history. -/
structure Dismisses (w w' : World μ) (b : BusId) (owner : SubscriberId) : Prop where
  gone : (w'.bus b).roster.byOwner.get? owner = none
  on_eq : ∀ topic, (w'.bus b).roster.on topic =
    ((w.bus b).roster.on topic).filter (·.id.owner ≠ owner)
  others : ∀ other, other ≠ owner →
    (w'.bus b).roster.byOwner.get? other = (w.bus b).roster.byOwner.get? other
  rest : w'.blank = (w.setBus b ((w.bus b).pruned (w'.bus b).roster)).blank

variable {w w' : World μ} {b : BusId} {log : Log} {roster : Roster}

theorem roster_of_blank (hb : b < w.buses.length) {bus : Bus}
    (hblank : w'.blank = (w.setBus b bus).blank) : (w'.bus b).roster = bus.roster := by
  rw [← bus_blank, hblank, bus_blank, bus_setBus _ _ _ hb]

theorem enrols_of_blank (hlog : (w.bus b).roster.Represents log) (hb : b < w.buses.length)
    {s : Subscriber} (hunary : ∀ h ∈ s.handlers, h.IsUnary)
    (henrol : (w.bus b).roster.enrol s.owner s.subscriptions = some roster)
    (hblank : w'.blank = (w.setBus b { w.bus b with roster }).blank) : w.Enrols w' b s := by
  have hroster := roster_of_blank hb hblank
  have habsent : s.owner ∉ log.owners := by
    intro hmem
    rw [hlog.enrol_present hmem] at henrol
    cases henrol
  obtain ⟨roster', henrol', hlog'⟩ := hlog.enrol habsent s.owner_subscriptions s.nodup_subscriptions
  obtain rfl : roster = roster' := Option.some.inj (henrol.symm.trans henrol')
  have hon : ∀ topic, roster.on topic =
      (w.bus b).roster.on topic ++ s.subscriptions.filter (·.topic = topic) := by
    intro topic
    rw [hlog'.on_eq, hlog.on_eq, Log.subscriptions, List.flatMap_append, List.filter_append,
      List.flatMap_singleton]
    rfl
  refine ⟨⟨s.subscriptions, Subscriber.binds_subscriptions hunary, ?_, ?_, ?_⟩, ?_, ?_⟩
  · rw [hroster]
    exact hlog'.get?_byOwner (List.mem_append_right _ (List.mem_singleton_self _))
  · rw [hroster]
    exact hon
  · intro topic
    -- nobody else's subscription bears the new owner's name
    have hold : ((w.bus b).roster.on topic).filter (·.id.owner = s.owner) = [] := by
      rw [List.filter_eq_nil_iff]
      intro x hx howner
      rw [hlog.on_eq] at hx
      rw [← of_decide_eq_true howner] at habsent
      exact habsent (hlog.proper.owner_mem (List.mem_of_mem_filter hx))
    have hnew : (s.subscriptions.filter (·.topic = topic)).filter (·.id.owner = s.owner) =
        s.subscriptions.filter (·.topic = topic) := by
      rw [List.filter_eq_self]
      exact fun x hx => decide_eq_true (s.owner_subscriptions x (List.mem_of_mem_filter hx))
    rw [hroster, hon, List.filter_append, hold, hnew, List.nil_append]
  · intro owner hne
    rw [hroster]
    rw [Roster.enrol] at henrol
    split at henrol
    · cases henrol
    · cases henrol
      rw [Keyed.get?_insert, if_neg hne]
  · rw [hblank, hroster]

theorem dismisses_of_blank (hlog : (w.bus b).roster.Represents log) (hb : b < w.buses.length)
    {owner : SubscriberId} {removed : List Subscription}
    (hdismiss : (w.bus b).roster.dismiss owner = some (removed, roster))
    (hblank : w'.blank = (w.setBus b ((w.bus b).pruned roster)).blank) :
    w.Dismisses w' b owner := by
  have hroster := roster_of_blank hb hblank
  rw [Bus.roster_pruned] at hroster
  have hpresent : owner ∈ log.owners := by
    by_contra habsent
    rw [hlog.dismiss_absent habsent] at hdismiss
    cases hdismiss
  obtain ⟨⟨owner', held⟩, hentry, rfl⟩ := List.mem_map.mp hpresent
  obtain ⟨roster', hdismiss', hlog'⟩ := hlog.dismiss hentry
  obtain ⟨rfl, rfl⟩ : removed = held ∧ roster = roster' :=
    Prod.mk.inj (Option.some.inj (hdismiss.symm.trans hdismiss'))
  obtain ⟨_, -, heq⟩ := Option.map_eq_some_iff.mp hdismiss
  have howners : roster.byOwner = (w.bus b).roster.byOwner.erase owner' :=
    congrArg Roster.byOwner (Prod.mk.inj heq).2.symm
  refine ⟨?_, ?_, ?_, ?_⟩
  · rw [hroster, howners, Keyed.get?_erase_self]
  · intro topic
    rw [hroster, hlog'.on_eq, hlog.on_eq, hlog.proper.subscriptions_filter, List.filter_filter,
      List.filter_filter]
    congr 1
    funext x
    exact Bool.and_comm ..
  · intro other hne
    rw [hroster, howners, Keyed.get?_erase, if_neg hne]
  · rw [hblank, hroster]

end World

namespace Deed

/-- Whenever this is done, the rosters of all buses stay as they are. -/
def KeepsRosters : Deed μ → Prop
  | .step s reply =>
    ∀ w w', s.run w = some (reply, w') → ∀ b, (w'.bus b).roster = (w.bus b).roster
  | _ => True

/-- Whenever this is done, it leaves the rosters that the whole call would leave, and the call would
give this answer. -/
def Decides (t : Thread) (b : BusId) (call : Enrolment) (answer : Except BusError Unit) :
    Deed μ → Prop
  | .step s reply => ∀ w w', b < w.buses.length → s.run w = some (reply, w') →
    ∃ w₁, (call.perform t b).alone w = some (answer, w₁) ∧
      ∀ b', (w'.bus b').roster = (w₁.bus b').roster
  | _ => False

theorem keepsRosters_step {s : Step μ} (hs : s.touchesTables = false) (reply : s.Reply) :
    (Deed.step s reply).KeepsRosters :=
  fun _ _ hrun b => ((Step.run_effect hrun).tables hs b).1

end Deed

/-- One thing that a thread does for a call decides what the call comes to. -/
structure Enrolment.Decided (t : Thread) (b : BusId) (call : Enrolment)
    (answer : Except BusError Unit) (deeds : List (Deed μ)) : Prop where
  decided : ∃ first deed rest, deeds = first ++ deed :: rest ∧ deed.Decides t b call answer ∧
    ∀ d ∈ first ++ rest, d.KeepsRosters

section Ends

variable {t : Thread} {b : BusId} {answer : Except BusError Unit} {deeds : List (Deed μ)}

theorem decides_enrol {s : Subscriber} {subscriptions : List Subscription}
    (hs : s.subscribe = .ok subscriptions) (enrolled : Bool) :
    (Deed.step (μ := μ) (.enrol b s.owner subscriptions) enrolled).Decides t b (.register s)
      (.ok ()) := by
  intro w w' hb hrun
  cases henrol : (w.bus b).roster.enrol s.owner subscriptions with
  | none =>
    rw [Step.run, henrol] at hrun
    cases hrun
    obtain ⟨w₁, halone, hblank⟩ := register_alone_present t hb hs henrol
    refine ⟨w₁, halone, fun b' => ?_⟩
    rw [← w₁.bus_blank, hblank, w.bus_blank]
  | some roster =>
    rw [Step.run, henrol] at hrun
    cases hrun
    obtain ⟨w₁, halone, hblank⟩ := register_alone_absent t hb hs henrol
    refine ⟨w₁, halone, fun b' => ?_⟩
    rw [← w₁.bus_blank, hblank, World.bus_blank]

theorem decides_dismiss {owner : SubscriberId} {name : String} {removed : Option (List Subscription)}
    (hanswer : answer = if removed.isSome then .ok () else .error (.notRegistered name)) :
    (Deed.step (μ := μ) (.dismiss b owner) removed).Decides t b (.unregister owner name) answer := by
  intro w w' hb hrun
  cases hdismiss : (w.bus b).roster.dismiss owner with
  | none =>
    rw [Step.run, hdismiss] at hrun
    cases hrun
    exact ⟨w, hanswer ▸ unregister_alone_absent t name hdismiss, fun _ => rfl⟩
  | some result =>
    obtain ⟨gone, roster⟩ := result
    rw [Step.run, hdismiss] at hrun
    cases hrun
    obtain ⟨w₁, halone, hblank⟩ := unregister_alone_present t hb name hdismiss
    refine ⟨w₁, hanswer ▸ halone, fun b' => ?_⟩
    rw [← w₁.bus_blank, hblank, World.bus_blank]
    by_cases hb' : b = b'
    · subst hb'
      rw [World.bus_setBus _ _ _ hb, World.bus_setBus _ _ _ hb, Bus.roster_pruned]
    · rw [World.bus_setBus_of_ne _ _ hb', World.bus_setBus_of_ne _ _ hb']

theorem decided_register {s : Subscriber} (h : Proc.Ends (register t b s) deeds answer) :
    Enrolment.Decided t b (.register s) answer deeds := by
  obtain ⟨listed, deeds₁, rfl, h₁⟩ := Proc.ends_ask_bind h
  obtain ⟨bus, deeds₂, rfl, h₂⟩ := Proc.ends_ask_bind h₁
  cases hs : s.subscribe with
  | error error =>
    rw [hs] at h₂
    obtain ⟨logged, deeds₃, rfl, h₃⟩ := Proc.ends_ask_bind h₂
    obtain ⟨rfl, rfl⟩ := Proc.ends_done h₃
    refine ⟨[], _, _, rfl, ?_, ?_⟩
    · intro w w' hb hrun
      obtain ⟨w₁, halone, hblank⟩ := register_alone_rejected t hb hs
      refine ⟨w₁, halone, fun b' => ?_⟩
      rw [← w₁.bus_blank, hblank, w.bus_blank]
      exact Deed.keepsRosters_step rfl _ w w' hrun b'
    · exact List.forall_mem_cons.mpr ⟨Deed.keepsRosters_step rfl _,
        List.forall_mem_singleton.mpr (Deed.keepsRosters_step rfl _)⟩
  | ok subscriptions =>
    rw [hs] at h₂
    obtain ⟨enrolled, deeds₃, rfl, h₃⟩ := Proc.ends_ask_bind h₂
    have hrest : answer = .ok () ∧ ∀ d ∈ deeds₃, d.KeepsRosters := by
      cases enrolled with
      | true | false =>
        obtain ⟨logged, deeds₄, rfl, h₄⟩ := Proc.ends_ask_bind h₃
        obtain ⟨rfl, rfl⟩ := Proc.ends_done h₄
        exact ⟨rfl, List.forall_mem_singleton.mpr (Deed.keepsRosters_step rfl _)⟩
    obtain ⟨rfl, hrest⟩ := hrest
    refine ⟨[_, _], _, deeds₃, rfl, decides_enrol hs enrolled, ?_⟩
    exact List.forall_mem_cons.mpr ⟨Deed.keepsRosters_step rfl _,
      List.forall_mem_cons.mpr ⟨Deed.keepsRosters_step rfl _, hrest⟩⟩

theorem decided_unregister {owner : SubscriberId} {name : String}
    (h : Proc.Ends (unregister t b owner name) deeds answer) :
    Enrolment.Decided t b (.unregister owner name) answer deeds := by
  obtain ⟨removed, deeds₁, rfl, h₁⟩ := Proc.ends_ask_bind h
  cases removed with
  | none =>
    obtain ⟨rfl, rfl⟩ := Proc.ends_done h₁
    exact ⟨[], _, [], rfl, decides_dismiss rfl, fun d hd => absurd hd List.not_mem_nil⟩
  | some removed =>
    obtain ⟨pruned, deeds₂, rfl, h₂⟩ := Proc.ends_ask_bind h₁
    obtain ⟨bus, deeds₃, rfl, h₃⟩ := Proc.ends_ask_bind h₂
    obtain ⟨logged, deeds₄, rfl, h₄⟩ := Proc.ends_ask_bind h₃
    obtain ⟨rfl, rfl⟩ := Proc.ends_done h₄
    refine ⟨[], _, _, rfl, decides_dismiss rfl, ?_⟩
    exact List.forall_mem_cons.mpr ⟨Deed.keepsRosters_step rfl _, List.forall_mem_cons.mpr
      ⟨Deed.keepsRosters_step rfl _, List.forall_mem_singleton.mpr (Deed.keepsRosters_step rfl _)⟩⟩

end Ends

/-- What registration of an object answers and leaves in a world. -/
structure Registers (β : Behaviour μ) (w : World μ) (t : Thread) (b : BusId) (s : Subscriber)
    (answer : Except BusError Unit) (w' : World μ) : Prop where
  runs : (register t b s).alone w = some (answer, w')
  judged : s.Judged answer
  enrols : answer = .ok () → (w.bus b).roster.contains s.owner = false → w.Enrols w' b s
  unnoticed : answer ≠ .ok () ∨ (w.bus b).roster.contains s.owner = true → w.Unnoticed β w'

/-- What it answers and leaves when an object, known as `name`, is unregistered. -/
structure Unregisters (w : World μ) (t : Thread) (b : BusId) (owner : SubscriberId) (name : String)
    (answer : Except BusError Unit) (w' : World μ) : Prop where
  runs : (unregister t b owner name).alone w = some (answer, w')
  refused_iff : answer = .error (.notRegistered name) ↔ (w.bus b).roster.contains owner = false
  ok_iff : answer = .ok () ↔ (w.bus b).roster.contains owner = true
  unchanged : answer ≠ .ok () → w' = w
  dismisses : answer = .ok () → w.Dismisses w' b owner

/-- Whatever other threads do meanwhile, the call answers what it would answer all at once at one
moment of its own, and then leaves the same rosters. Nothing else that it does touches a roster. -/
structure HappensAtOnce (β : Behaviour μ) (depth : Nat) (m m' : Machine μ α) (later : Trace μ)
    (u : Turn) (t : Thread) (b : BusId) (call : Enrolment) (answer : Except BusError Unit) :
    Prop where
  moment : ∃ first deed rest before after m₁ m₂ w', later.deedsOf u = first ++ deed :: rest ∧
    (∀ d ∈ first ++ rest, d.KeepsRosters) ∧ later = after ++ (u, deed) :: before ∧
    m.Course β depth before m₁ ∧ m₁.turn β depth u = some m₂ ∧ m₂.Course β depth after m' ∧
    (call.perform t b).alone m₁.world = some (answer, w') ∧
    ∀ b', (m₂.world.bus b').roster = (w'.bus b').roster

section Runs

variable {β : Behaviour μ} {depth : Nat} {w : World μ} {b : BusId} {log : Log}

theorem exists_registers (hlog : (w.bus b).roster.Represents log) (hb : b < w.buses.length)
    (t : Thread) (s : Subscriber) : ∃ answer w', Registers β w t b s answer w' := by
  have hjudged := s.judged_subscribe
  cases hs : s.subscribe with
  | error error =>
    rw [hs] at hjudged
    obtain ⟨w', halone, hblank⟩ := register_alone_rejected t hb hs
    exact ⟨_, w', halone, hjudged, fun hok => (by cases hok),
      fun _ => World.unnoticed_of_blank hblank β⟩
  | ok subscriptions =>
    rw [hs] at hjudged
    obtain rfl := Subscriber.subscribe_eq_ok hs
    by_cases howner : s.owner ∈ log.owners
    · have hpresent := (hlog.contains_iff s.owner).mpr howner
      obtain ⟨w', halone, hblank⟩ := register_alone_present t hb hs (hlog.enrol_present howner _)
      refine ⟨_, w', halone, hjudged, fun _ habsent => ?_, fun _ => World.unnoticed_of_blank hblank β⟩
      rw [hpresent] at habsent
      cases habsent
    · obtain ⟨roster, henrol, -⟩ := hlog.enrol howner s.owner_subscriptions s.nodup_subscriptions
      obtain ⟨w', halone, hblank⟩ := register_alone_absent t hb hs henrol
      refine ⟨_, w', halone, hjudged, fun hok _ => ?_, ?_⟩
      · exact World.enrols_of_blank hlog hb (hjudged.ok_iff.mp hok).2 henrol hblank
      · rintro (hbad | hpresent)
        · exact absurd rfl hbad
        · exact absurd ((hlog.contains_iff s.owner).mp hpresent) howner

theorem exists_unregisters (hlog : (w.bus b).roster.Represents log) (hb : b < w.buses.length)
    (t : Thread) (owner : SubscriberId) (name : String) :
    ∃ answer w', Unregisters w t b owner name answer w' := by
  by_cases howner : owner ∈ log.owners
  · have hpresent := (hlog.contains_iff owner).mpr howner
    obtain ⟨entry, hentry, rfl⟩ := List.mem_map.mp howner
    obtain ⟨roster, hdismiss, -⟩ := hlog.dismiss hentry
    obtain ⟨w', halone, hblank⟩ := unregister_alone_present t hb name hdismiss
    refine ⟨_, w', halone, ?_, iff_of_true rfl hpresent, fun hbad => absurd rfl hbad, fun _ => ?_⟩
    · rw [hpresent]
      exact iff_of_false (fun he => by cases he) fun he => by cases he
    · exact World.dismisses_of_blank hlog hb hdismiss hblank
  · have habsent : (w.bus b).roster.contains owner = false :=
      Bool.eq_false_iff.mpr fun hc => howner ((hlog.contains_iff owner).mp hc)
    refine ⟨_, w, unregister_alone_absent t name (hlog.dismiss_absent howner),
      iff_of_true rfl habsent, ?_, fun _ => rfl, fun hok => by cases hok⟩
    rw [habsent]
    exact iff_of_false (fun he => by cases he) fun he => by cases he

theorem happensAtOnce {m m' : Machine μ α} {later : Trace μ} (hcourse : m.Course β depth later m')
    (hb : b < m.world.buses.length) {u : Turn} {t : Thread} {call : Enrolment}
    {answer : Except BusError Unit} (hends : Proc.Ends (call.perform t b) (later.deedsOf u) answer) :
    HappensAtOnce β depth m m' later u t b call answer := by
  have hdecided : Enrolment.Decided t b call answer (later.deedsOf u) := by
    cases call with
    | register s => exact decided_register hends
    | unregister owner name => exact decided_unregister hends
  obtain ⟨first, deed, rest, hdeeds, hdecides, hkeeps⟩ := hdecided.decided
  have hmem : (u, deed) ∈ later := by
    rw [← Trace.mem_deedsOf, hdeeds]
    exact List.mem_append_right _ List.mem_cons_self
  cases deed with
  | took job => exact hdecides.elim
  | woke => exact hdecides.elim
  | step s reply =>
    obtain ⟨before, after, m₁, m₂, htrace, hbefore, hmoved, hdone, hafter⟩ :=
      hcourse.exists_moment_of_mem hmem
    have hturned := Machine.turn_turned hmoved
    rw [hdone] at hturned
    cases hturned with
    | step _ hrun _ =>
      have hb₁ := Nat.lt_of_lt_of_le hb hbefore.busesExtend.length_le
      obtain ⟨w', halone, hrosters⟩ := hdecides _ _ hb₁ hrun
      exact ⟨first, _, rest, before, after, m₁, m₂, w', hdeeds, hkeeps, htrace, hbefore, hmoved, hafter,
        halone, hrosters⟩

variable {memory : μ} {body : Body μ α} {trace : Trace μ} {m : Machine μ α}

/-- At every moment of every run, registration answers what the declarations say, whether the object
is registered or not. An absent object with valid declarations comes to hold one subscription for each
of them; every other registration, and every attempt to unregister an absent object, leaves nothing that
anybody could notice. While other threads go on, each call takes effect at a single moment. -/
theorem registration_is_all_or_nothing (h : Run β depth memory body trace m)
    (hb : b < m.world.buses.length) :
    (∀ t s, ∃ answer w', Registers β m.world t b s answer w') ∧
    (∀ t owner name, ∃ answer w', Unregisters m.world t b owner name answer w') ∧
    ∀ later m', m.Course β depth later m' → ∀ u t call answer,
      Proc.Ends (Enrolment.perform t b call) (later.deedsOf u) answer →
        HappensAtOnce β depth m m' later u t b call answer := by
  obtain ⟨log, hlog⟩ := (Activities.isSound_of_lawful h.activities.1 b).roster
  exact ⟨exists_registers hlog hb, exists_unregisters hlog hb,
    fun _ _ hcourse _ _ _ _ hends => happensAtOnce hcourse hb hends⟩

end Runs

/-- The crew is registered. It comes back with declarations of which the second takes two parameters
and the third none. -/
theorem registration_is_all_or_nothing_on_return :
    let crew : Subscriber := ⟨⟨"Crew", 0⟩, "crew", [⟨"hear", true, .one .root, ⟨0⟩⟩]⟩
    let spoilt : Subscriber := ⟨⟨"Crew", 0⟩, "old crew",
      [⟨"hear", true, .one .root, ⟨0⟩⟩, ⟨"pair", true, .count 2, ⟨1⟩⟩,
        ⟨"none", true, .count 0, ⟨2⟩⟩]⟩
    let β : Behaviour Unit := {
      handle _ _ := .done .fine
      observe _ _ := .done none
      work _ := .done none }
    let body : Body Unit Unit := .step (.openBus .standard .publisher) fun b =>
      .step (.register b crew) fun _ => .done ()
    ∃ trace m, Run β 1 () body trace m ∧ 0 < m.world.buses.length ∧
      (m.world.bus 0).roster.contains crew.owner = true ∧
      (∃ w', Registers β m.world .main 0 spoilt (.error (.wrongArity "old crew" "pair" 2)) w') ∧
      ∃ w', Unregisters m.world .main 0 crew.owner "crew" (.ok ()) w' := by
  intro crew spoilt β body
  have hseen : ((Machine.start β 1 () body).play β 1 (List.replicate 5 (.caller 0))).any (fun run =>
      0 < run.2.world.buses.length ∧ (run.2.world.bus 0).roster.contains crew.owner = true) = true := by
    decide +kernel
  obtain ⟨trace, m, hrun, hfacts⟩ := Run.exists_of_play hseen
  obtain ⟨hopen, hcrew⟩ := of_decide_eq_true hfacts
  obtain ⟨hregisters, hunregisters, -⟩ := registration_is_all_or_nothing hrun hopen
  obtain ⟨answer, w', hcalled⟩ := hregisters .main spoilt
  obtain ⟨answer', w'', hleft⟩ := hunregisters .main crew.owner "crew"
  have hfirst : spoilt.FirstInvalid "pair" 2 := by
    refine ⟨[⟨"hear", true, .one .root, ⟨0⟩⟩], _, _, rfl, ?_, rfl, rfl⟩
    exact List.forall_mem_singleton.mpr ⟨.root, rfl⟩
  obtain rfl := (hcalled.judged.wrongArity_iff "pair" 2).mpr hfirst
  obtain rfl := hleft.ok_iff.mpr hcrew
  exact ⟨trace, m, hrun, hopen, hcrew, ⟨w', hcalled⟩, w'', hleft⟩

end PubSub
