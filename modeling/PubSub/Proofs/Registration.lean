import PubSub.Enrolment
import PubSub.Proofs.Alone
import PubSub.Proofs.RosterLog

/-!
# Registrations and the log

Calls that register and unregister objects, one after another, answer and change the roster of
their bus as the log says. A call either makes one change of the log or none.
-/
namespace PubSub

open Program

variable {μ : Type}

namespace Subscriber

variable (s : Subscriber)

theorem subscribe_eq_ok {s : Subscriber} {subscriptions : List Subscription}
    (h : s.subscribe = .ok subscriptions) : subscriptions = s.subscriptions := by
  rw [subscribe] at h
  split at h
  · cases h
  · split at h
    · cases h
    · cases h; rfl

theorem subscription?_id {place : Nat} {h : Handler} {x : Subscription}
    (hx : s.subscription? place h = some x) : x.id = ⟨s.owner, place⟩ := by
  rw [subscription?] at hx
  split at hx
  · cases hx; rfl
  · cases hx

theorem owner_subscriptions : ∀ x ∈ s.subscriptions, x.id.owner = s.owner := by
  intro x hx
  obtain ⟨⟨h, place⟩, -, hx⟩ := List.mem_filterMap.mp hx
  rw [s.subscription?_id hx]

theorem nodup_subscriptions : (s.subscriptions.map Subscription.id).Nodup := by
  have hplaces : (s.handlers.zipIdx).Pairwise fun a b => a.2 ≠ b.2 := by
    rw [← List.pairwise_map (f := Prod.snd), List.zipIdx_map_snd]
    exact List.nodup_range'
  rw [subscriptions, List.Nodup, List.pairwise_map, List.pairwise_filterMap]
  refine hplaces.imp ?_
  intro a b hne x hx y hy hid
  rw [s.subscription?_id hx, s.subscription?_id hy] at hid
  exact hne (congrArg HandlerKey.place hid)

end Subscriber

/-- A call that registers or unregisters an object, as the object presents itself then. -/
inductive Enrolment where
  | register (subscriber : Subscriber)
  | unregister (owner : SubscriberId) (name : String)

namespace Log

/-- What a call answers. -/
def answer (log : Log) : Enrolment → Except BusError Unit
  | .register s => s.subscribe.map fun _ => ()
  | .unregister owner name =>
    if owner ∈ log.owners then .ok () else .error (.notRegistered name)

/-- The log after a call. Only valid declarations of an absent owner are added, at the end. -/
def after (log : Log) : Enrolment → Log
  | .register s =>
    match s.subscribe with
    | .error _ => log
    | .ok subscriptions =>
      if s.owner ∈ log.owners then log else log ++ [(s.owner, subscriptions)]
  | .unregister owner _ => log.filter (·.1 ≠ owner)

/-- What calls answer one after another. -/
def answers (log : Log) : List Enrolment → List (Except BusError Unit)
  | [] => []
  | call :: rest => log.answer call :: (log.after call).answers rest

end Log

namespace Enrolment

def perform (t : Thread) (b : BusId) : Enrolment → Proc μ (Except BusError Unit)
  | .register subscriber => PubSub.register t b subscriber
  | .unregister owner name => PubSub.unregister t b owner name

def performAll (t : Thread) (b : BusId) : List Enrolment → Proc μ (List (Except BusError Unit))
  | [] => return []
  | call :: rest => do
    let answer ← call.perform t b
    let answers ← performAll t b rest
    return answer :: answers

end Enrolment

/-- What a program does to a roster when it runs alone: the answer, and the roster after it. -/
def Proc.Leaves {α : Type} (p : Proc μ α) (b : BusId) (w : World μ) (answer : α)
    (roster : Roster) : Prop :=
  ∃ w', p.alone w = some (answer, w') ∧ w'.buses.length = w.buses.length ∧
    (w'.bus b).roster = roster

theorem register_leaves (t : Thread) (b : BusId) (s : Subscriber) {w : World μ}
    (hb : b < w.buses.length) :
    (register t b s).Leaves b w (s.subscribe.map fun _ => ())
      (match s.subscribe with
        | .error _ => (w.bus b).roster
        | .ok subscriptions =>
          ((w.bus b).roster.enrol s.owner subscriptions).getD (w.bus b).roster) := by
  have hbus := w.getElem?_buses hb
  unfold Proc.Leaves
  cases hs : s.subscribe with
  | error e =>
    simp [register, Proc.record, Proc.readBus, Proc.log, Proc.atom, ask, Step.run, hs, hbus, Except.map]
  | ok subscriptions =>
    cases he : (w.bus b).roster.enrol s.owner subscriptions with
    | none =>
      simp [register, Proc.record, Proc.readBus, Proc.log, Proc.enrol, Proc.atom, ask, Step.run, hs,
        hbus, he, Except.map]
    | some roster =>
      simp only [register, Proc.record, Proc.readBus, Proc.log, Proc.enrol, Proc.atom, ask, Step.run,
        hs, he, hbus, bind_eq, pure_eq, step_bind, done_bind, Proc.alone_step, Proc.alone_done,
        Option.bind_some, Option.map_some, World.buses_record, World.bus_record, Except.map, if_true]
      exact ⟨_, rfl, World.length_setBus .., congrArg Bus.roster (World.bus_setBus _ b _ hb)⟩

theorem unregister_leaves (t : Thread) (b : BusId) (owner : SubscriberId) (name : String)
    {w : World μ} (hb : b < w.buses.length) :
    (unregister t b owner name).Leaves b w
      (match (w.bus b).roster.dismiss owner with
        | none => .error (.notRegistered name)
        | some _ => .ok ())
      (((w.bus b).roster.dismiss owner).elim (w.bus b).roster Prod.snd) := by
  unfold Proc.Leaves
  cases hd : (w.bus b).roster.dismiss owner with
  | none => simp [unregister, Proc.dismiss, Proc.atom, ask, Step.run, hd]
  | some result =>
    simp only [unregister, Proc.dismiss, Proc.prune, Proc.readBus, Proc.log, Proc.record, Proc.atom,
      ask, Step.run, hd, bind_eq, pure_eq, step_bind, done_bind, Proc.alone_step, Proc.alone_done,
      Option.bind_some]
    have hlength (bus bus' : Bus) : ((w.setBus b bus).setBus b bus').buses.length = w.buses.length := by
      rw [World.length_setBus, World.length_setBus]
    rw [World.setLocks, World.getElem?_buses (by rw [hlength]; exact hb)]
    refine ⟨_, rfl, hlength _ _, ?_⟩
    rw [Option.elim_some, World.bus_record, World.bus_setBus _ _ _ (by rwa [World.length_setBus])]
    exact congrArg Bus.roster (World.bus_setBus _ b _ hb)

theorem Roster.Represents.perform_leaves {w : World μ} {b : BusId} {log : Log}
    (h : (w.bus b).roster.Represents log) (t : Thread) (hb : b < w.buses.length)
    (call : Enrolment) :
    ∃ roster, (call.perform t b).Leaves b w (log.answer call) roster ∧
      roster.Represents (log.after call) := by
  cases call with
  | register s =>
    refine ⟨_, register_leaves t b s hb, ?_⟩
    rw [Log.after]
    cases hs : s.subscribe with
    | error e => exact h
    | ok subscriptions =>
      by_cases howner : s.owner ∈ log.owners
      · simp only [h.enrol_present howner, howner, if_true, Option.getD_none]
        exact h
      · have heq := Subscriber.subscribe_eq_ok hs
        subst heq
        obtain ⟨roster, henrol, hroster⟩ :=
          h.enrol howner s.owner_subscriptions s.nodup_subscriptions
        simp only [henrol, howner, if_false, Option.getD_some]
        exact hroster
  | unregister owner name =>
    have hleaves := unregister_leaves t b owner name hb
    rw [Log.answer, Log.after]
    by_cases howner : owner ∈ log.owners
    · obtain ⟨entry, hentry, rfl⟩ := List.mem_map.mp howner
      obtain ⟨roster, hdismiss, hroster⟩ := h.dismiss hentry
      rw [hdismiss] at hleaves
      rw [if_pos howner]
      exact ⟨roster, hleaves, hroster⟩
    · rw [h.dismiss_absent howner] at hleaves
      rw [if_neg howner, List.filter_eq_self.mpr]
      · exact ⟨_, hleaves, h⟩
      · intro entry hentry
        have hne : entry.1 ≠ owner := fun he => howner (he ▸ List.mem_map_of_mem hentry)
        simpa using hne

theorem Roster.Represents.performAll_leaves {w : World μ} {b : BusId} {log : Log}
    (h : (w.bus b).roster.Represents log) (t : Thread) (hb : b < w.buses.length)
    (calls : List Enrolment) :
    ∃ roster, (Enrolment.performAll t b calls).Leaves b w (log.answers calls) roster ∧
      roster.Represents (calls.foldl Log.after log) := by
  induction calls generalizing w log with
  | nil => exact ⟨_, ⟨w, rfl, rfl, rfl⟩, h⟩
  | cons call rest ih =>
    obtain ⟨_, ⟨w₁, hrun₁, hlen₁, rfl⟩, hrep₁⟩ := h.perform_leaves t hb call
    obtain ⟨roster, ⟨w₂, hrun₂, hlen₂, hroster⟩, hrep₂⟩ := ih hrep₁ (hlen₁ ▸ hb)
    refine ⟨roster, ⟨w₂, ?_, hlen₂.trans hlen₁, hroster⟩, hrep₂⟩
    simp only [Enrolment.performAll, bind_eq, pure_eq, Proc.alone_bind, hrun₁, hrun₂,
      Option.bind_some, Proc.alone_done, Log.answers]

/-- An object that registers and leaves again has no effect on the roster. -/
theorem Roster.Represents.register_unregister {w : World μ} {b : BusId} {log : Log}
    (h : (w.bus b).roster.Represents log) (t : Thread) (hb : b < w.buses.length) {s : Subscriber}
    {subscriptions : List Subscription} (hs : s.subscribe = .ok subscriptions)
    (habsent : s.owner ∉ log.owners) (name : String) :
    (Enrolment.performAll t b [.register s, .unregister s.owner name]).Leaves b w
      [.ok (), .ok ()] (w.bus b).roster := by
  have heq := Subscriber.subscribe_eq_ok hs
  subst heq
  have hback := h.dismiss_enrol habsent s.owner_subscriptions s.nodup_subscriptions
  obtain ⟨roster, henrol, hdismiss⟩ := Option.bind_eq_some_iff.mp hback
  have hregister := register_leaves t b s hb
  rw [hs] at hregister
  simp only [henrol, Option.getD_some] at hregister
  obtain ⟨w₁, hrun₁, hlen₁, hroster₁⟩ := hregister
  have hunregister := unregister_leaves t b s.owner name (hlen₁ ▸ hb)
  rw [hroster₁, hdismiss] at hunregister
  obtain ⟨w₂, hrun₂, hlen₂, hroster₂⟩ := hunregister
  refine ⟨w₂, ?_, hlen₂.trans hlen₁, hroster₂⟩
  simp only [Enrolment.performAll, Enrolment.perform, bind_eq, pure_eq, Proc.alone_bind, hrun₁,
    hrun₂, Option.bind_some, Proc.alone_done]
  rfl

/-- Opens a bus and performs calls on it. -/
def Enrolment.performOnNew (settings : BusSettings) (discipline : Discipline) (t : Thread)
    (calls : List Enrolment) : Proc μ (List (Except BusError Unit)) := do
  let b ← Proc.openBus settings discipline
  performAll t b calls

/-- Whatever objects register and unregister on a bus, in whatever order and however they present
themselves, the calls answer and the roster shows what the log says. A registration after a
withdrawal goes to the end of the log; a withdrawal just after a registration undoes it. -/
theorem registrations_follow_log (settings : BusSettings) (discipline : Discipline) (t : Thread)
    (w : World μ) (calls : List Enrolment) :
    let b := w.buses.length
    let log := calls.foldl Log.after []
    ∃ w', (Enrolment.performOnNew settings discipline t calls).alone w =
        some (Log.answers [] calls, w') ∧
      (w'.bus b).roster.Shows log ∧
      ∀ s subscriptions name, s.subscribe = .ok subscriptions →
        (log.after (.unregister s.owner name)).after (.register s) =
          log.filter (·.1 ≠ s.owner) ++ [(s.owner, subscriptions)] ∧
        (s.owner ∉ log.owners → ∃ w'',
          (Enrolment.performAll t b [.register s, .unregister s.owner name]).alone w' =
            some ([.ok (), .ok ()], w'') ∧
          (w''.bus b).roster = (w'.bus b).roster) := by
  intro b log
  let opened : World μ := { w with buses := w.buses ++ [.fresh settings discipline] }
  have hb : b < opened.buses.length := by
    rw [List.length_append]
    exact Nat.lt_succ_self _
  have hempty : (opened.bus b).roster.Represents [] := by
    have hbus : opened.bus b = .fresh settings discipline :=
      World.bus_of_getElem? (List.getElem?_concat_length ..)
    rw [hbus]
    exact Roster.represents_empty
  obtain ⟨_, ⟨w', hrun, hlen, rfl⟩, hrep⟩ := hempty.performAll_leaves t hb calls
  refine ⟨w', ?_, hrep.shows, ?_⟩
  · simp only [Enrolment.performOnNew, Proc.openBus, Proc.atom, ask, bind_eq, step_bind, done_bind,
      Proc.alone_step, Step.run, Option.bind_some]
    exact hrun
  · intro s subscriptions name hs
    constructor
    · have hgone : s.owner ∉ Log.owners (log.filter (·.1 ≠ s.owner)) := by
        simp [Log.owners]
      simp only [Log.after, hs]
      exact if_neg hgone
    · intro habsent
      obtain ⟨w'', hrun', -, hroster⟩ :=
        hrep.register_unregister t (hlen ▸ hb) hs habsent name
      exact ⟨w'', hrun', hroster⟩

/-- Two objects share a type; the first, which has two handlers, leaves and comes back. -/
theorem registrations_follow_log_on_reentry :
    let audit : Subscriber := ⟨⟨"audit", 0⟩, "audit",
      [⟨"first", false, .one .root, ⟨0⟩⟩, ⟨"second", true, .one .root, ⟨1⟩⟩]⟩
    let trail : Subscriber := ⟨⟨"trail", 1⟩, "trail", [⟨"only", false, .one .root, ⟨2⟩⟩]⟩
    let log : Log := [(trail.owner, trail.subscriptions)]
    audit.subscribe = .ok audit.subscriptions ∧ audit.owner ∉ log.owners ∧
      ∃ w' w'' : World Unit,
        (Enrolment.performAll .main 0 [.register audit, .unregister audit.owner ""]).alone w' =
          some ([.ok (), .ok ()], w'') ∧
        (w'.bus 0).roster.Shows log ∧ (w''.bus 0).roster = (w'.bus 0).roster := by
  intro audit trail log
  have hs : audit.subscribe = .ok audit.subscriptions := rfl
  have habsent : audit.owner ∉ log.owners := by decide
  obtain ⟨w', -, hshows, hback⟩ := registrations_follow_log .standard .publisher .main
    (World.start ()) [.register audit, .register trail, .unregister audit.owner ""]
  obtain ⟨w'', hrun, hroster⟩ := (hback audit _ "" hs).2 habsent
  exact ⟨hs, habsent, w', w'', hrun, hshows, hroster⟩

end PubSub
