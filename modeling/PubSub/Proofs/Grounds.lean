import PubSub.Proofs.Compliance
import PubSub.Proofs.RosterLog

/-!
# What threads may rely on

Tables on buses take events to objects, rosters hold nothing but what has been enrolled, and jobs
are deliveries that the protocol let threads hand over. So whatever a thread learns from a bus or
an executor is true, and every run follows the protocol.
-/
namespace PubSub

variable {μ α : Type}

namespace Roster

variable {r r' : Roster} {topic : Topic} {s : Subscription}

theorem mem_addByTopic {index : Keyed Topic (List Subscription)} {x : Subscription}
    (h : s ∈ ((addByTopic index x).get? topic).getD []) :
    s ∈ (index.get? topic).getD [] ∨ s = x ∧ x.topic = topic := by
  rw [addByTopic, Keyed.get?_insert] at h
  split at h
  · rename_i ht
    rw [Option.getD_some, List.mem_append, List.mem_singleton, ← ht] at h
    exact h.imp_right fun hs => ⟨hs, ht.symm⟩
  · exact .inl h

theorem mem_on_enrol {owner : SubscriberId} {added : List Subscription}
    (henrol : r.enrol owner added = some r') (h : s ∈ r'.on topic) :
    s ∈ r.on topic ∨ s ∈ added ∧ s.topic = topic := by
  rw [enrol] at henrol
  split at henrol <;> cases henrol
  unfold on at h ⊢
  generalize r.byTopic = index at h ⊢
  induction added generalizing index with
  | nil => exact .inl h
  | cons x added ih =>
    rcases ih _ h with hs | ⟨hs, ht⟩
    · rcases mem_addByTopic hs with hs | ⟨rfl, ht⟩
      · exact .inl hs
      · exact .inr ⟨List.mem_cons_self, ht⟩
    · exact .inr ⟨List.mem_cons_of_mem _ hs, ht⟩

theorem mem_dropByTopic {index : Keyed Topic (List Subscription)} {x : Subscription}
    (h : s ∈ ((dropByTopic index x).get? topic).getD []) : s ∈ (index.get? topic).getD [] := by
  rw [get?_dropByTopic] at h
  split at h
  · cases hget : index.get? topic with
    | none => rw [hget] at h; exact h
    | some present =>
      rw [hget, Option.bind_some, getD_listed] at h
      exact List.mem_of_mem_filter h
  · exact h

theorem mem_on_dismiss {owner : SubscriberId} {removed : List Subscription}
    (hdismiss : r.dismiss owner = some (removed, r')) (h : s ∈ r'.on topic) : s ∈ r.on topic := by
  obtain ⟨removed', -, heq⟩ := Option.map_eq_some_iff.mp hdismiss
  cases heq
  unfold on at h ⊢
  clear hdismiss
  generalize r.byTopic = index at h ⊢
  induction removed generalizing index with
  | nil => exact h
  | cons x removed ih => exact mem_dropByTopic (ih _ h)

end Roster

theorem Table.Realizes.carries {type : EventType} {table : Table} {expansion : Expansion}
    (h : table.Realizes type expansion) : table.Carries type := by
  induction h with
  | nil => exact nofun
  | cons hentry _ ih =>
    rw [Table.Carries, List.forall_mem_cons]
    exact ⟨⟨_, hentry.1 ▸ hentry.2⟩, ih⟩

namespace Declarations

theorem collected_carries (d : Declarations) (type : EventType) :
    (d.collected type).Carries type := (d.collectedBelow_realizes _ type _).carries

theorem table_carries (d : Declarations) (type : EventType) : (d.table type).Carries type := by
  intro entry hentry
  rw [table, Table.add] at hentry
  split at hentry
  · exact d.collected_carries type entry hentry
  · rcases List.mem_append.mp hentry with hold | hroot
    · exact d.collected_carries type entry hold
    · rw [List.mem_singleton] at hroot
      exact ⟨.event, hroot ▸ rootEntry_carries type⟩

end Declarations

/-- A subscription that was once added to the roster of a bus. -/
def Enrolled (trace : Trace μ) (b : BusId) (s : Subscription) : Prop :=
  ∃ t owner added, (t, .step (.enrol b owner added) true) ∈ trace ∧ s ∈ added

theorem Enrolled.cons {trace : Trace μ} {b : BusId} {s : Subscription} (h : Enrolled trace b s)
    (deed : Turn × Deed μ) : Enrolled (deed :: trace) b s := by
  obtain ⟨t, owner, added, hmem, hs⟩ := h
  exact ⟨t, owner, added, List.mem_cons_of_mem _ hmem, hs⟩

theorem Bus.roster_keepTable (bus : Bus) (type : EventType) (table : Table) :
    (bus.keepTable type table).2.roster = bus.roster := by
  unfold keepTable
  split <;> rfl

/-- What is answered is what the bus keeps. -/
theorem Bus.get?_keepTable (bus : Bus) (type : EventType) (table : Table) :
    (bus.keepTable type table).2.tables.get? type = some (bus.keepTable type table).1 := by
  unfold keepTable
  cases hkept : bus.tables.get? type with
  | some kept => exact hkept
  | none => exact (Keyed.get?_insert ..).trans (if_pos rfl)

/-- What a step does to the roster and the tables of a bus. -/
inductive Step.Contents (s : Step μ) (reply : s.Reply) (b : BusId) (bus bus' : Bus) : Prop where
  | same (roster : bus'.roster = bus.roster) (tables : bus'.tables = bus.tables)
  | kept {type : EventType} {table : Table} (step : s = .keepTable b type table)
      (roster : bus'.roster = bus.roster)
      (tables : bus'.tables = (bus.keepTable type table).2.tables)
  | enrolled {owner : SubscriberId} {added : List Subscription}
      (deed : Deed.step s reply = .step (.enrol b owner added) true)
      (roster : bus.roster.enrol owner added = some bus'.roster) (tables : bus'.tables = bus.tables)
  | dismissed {owner : SubscriberId} {removed : List Subscription}
      (roster : bus.roster.dismiss owner = some (removed, bus'.roster))
      (tables : bus'.tables = bus.tables)

theorem Step.contents {s : Step μ} {reply : s.Reply} {w w' : World μ}
    (h : s.run w = some (reply, w')) (b : BusId) : s.Contents reply b (w.bus b) (w'.bus b) := by
  cases htouch : s.touchesTables with
  | false =>
    obtain ⟨hroster, htables⟩ := (run_effect h).tables htouch b
    exact .same hroster htables
  | true =>
    cases s with
    | keepTable b' type table =>
      obtain ⟨bus, hbus, heq⟩ := Option.map_eq_some_iff.mp h
      have hw' : w' = w.setBus b' (bus.keepTable type table).2 := (Prod.mk.inj heq).2.symm
      have hsame := World.bus_of_getElem? hbus
      subst hsame hw'
      rw [World.bus_setBus_eq]
      split
      · rename_i hb
        obtain ⟨rfl, -⟩ := hb
        exact .kept rfl (Bus.roster_keepTable ..) rfl
      · exact .same rfl rfl
    | enrol b' owner added =>
      rw [run] at h
      split at h
      · rename_i roster henrol
        cases h
        rw [World.bus_setBus_eq]
        split
        · rename_i hb
          obtain ⟨rfl, -⟩ := hb
          exact .enrolled rfl henrol rfl
        · exact .same rfl rfl
      · cases h
        exact .same rfl rfl
    | dismiss b' owner =>
      rw [run] at h
      split at h
      · rename_i removed roster hdismiss
        cases h
        rw [World.bus_setBus_eq]
        split
        · rename_i hb
          obtain ⟨rfl, -⟩ := hb
          exact .dismissed hdismiss rfl
        · exact .same rfl rfl
      · cases h
        exact .same rfl rfl
    | _ => cases htouch

namespace Outlook

variable {O : Outlook}

/-- What is true of tables, rosters and jobs at any moment. -/
structure Grounded (O : Outlook) (trace : Trace μ) (w : World μ) : Prop where
  tables : ∀ b type table, (w.bus b).tables.get? type = some table → table.Carries type
  rosters : ∀ b topic, ∀ s ∈ (w.bus b).roster.on topic, s.topic = topic ∧ Enrolled trace b s
  jobs : ∀ job ∈ w.jobs, O.TrustsJob job

theorem grounded_start (memory : μ) : O.Grounded [] (.start memory) :=
  ⟨fun _ _ _ => nofun, fun _ _ _ => nofun, fun _ => nofun⟩

theorem Grounded.tables_after {trace : Trace μ} {w w' : World μ} {s : Step μ} {reply : s.Reply}
    (h : O.Grounded trace w) {g : Standing} (hallows : O.Allows g s)
    (hrun : s.run w = some (reply, w')) (b : BusId) (type : EventType) (table : Table)
    (htable : (w'.bus b).tables.get? type = some table) : table.Carries type := by
  cases Step.contents hrun b with
  | same _ htables => exact h.tables b type table (htables ▸ htable)
  | enrolled _ _ htables => exact h.tables b type table (htables ▸ htable)
  | dismissed _ htables => exact h.tables b type table (htables ▸ htable)
  | kept hstep _ htables =>
    subst hstep
    rw [htables, Bus.keepTable] at htable
    split at htable
    · exact h.tables b type table htable
    · rw [Keyed.get?_insert] at htable
      split at htable
      · rename_i htype
        cases htable
        exact htype ▸ hallows
      · exact h.tables b type table htable

theorem Grounded.rosters_after {trace : Trace μ} {w w' : World μ} {s : Step μ} {reply : s.Reply}
    (h : O.Grounded trace w) (t : Turn) (hrun : s.run w = some (reply, w')) (b : BusId)
    (topic : Topic) (x : Subscription) (hx : x ∈ (w'.bus b).roster.on topic) :
    x.topic = topic ∧ Enrolled ((t, .step s reply) :: trace) b x := by
  have hold : x ∈ (w.bus b).roster.on topic →
      x.topic = topic ∧ Enrolled ((t, .step s reply) :: trace) b x := fun hx =>
    (h.rosters b topic x hx).imp_right fun he => he.cons _
  cases Step.contents hrun b with
  | same hroster _ => exact hold (hroster ▸ hx)
  | kept _ hroster _ => exact hold (hroster ▸ hx)
  | dismissed hdismiss _ => exact hold (Roster.mem_on_dismiss hdismiss hx)
  | @enrolled owner added hdeed henrol _ =>
    rcases Roster.mem_on_enrol henrol hx with hx | ⟨hx, ht⟩
    · exact hold hx
    · exact ⟨ht, t, owner, added, hdeed ▸ List.mem_cons_self, hx⟩

theorem Grounded.jobs_after {trace : Trace μ} {w w' : World μ} {s : Step μ} {reply : s.Reply}
    (h : O.Grounded trace w) {g : Standing} (hallows : O.Allows g s)
    (hrun : s.run w = some (reply, w')) : ∀ job ∈ w'.jobs, O.TrustsJob job := by
  have hgained : ∀ job ∈ s.gained reply, O.TrustsJob job := by
    intro job hjob
    cases s with
    | offer e job' =>
      cases reply with
      | false => cases hjob
      | true =>
        rw [List.mem_singleton.mp hjob]
        cases job' with
        | delivery d executor => exact hallows
        | work label body => trivial
    | send e job' =>
      cases reply with
      | false => cases hjob
      | true =>
        rw [List.mem_singleton.mp hjob]
        cases job' with
        | delivery d executor => exact hallows
        | work label body => trivial
    | openExecutor x =>
      have hnone : x.jobs = [] := hallows
      rw [Step.gained, hnone] at hjob
      cases hjob
    | _ => cases hjob
  intro job hjob
  have hmem := (Step.run_effect hrun).jobs.mem_iff.mp (List.mem_append_right _ hjob)
  exact (List.mem_append.mp hmem).elim (hgained job) (h.jobs job)

theorem grounded {trace : Trace μ} {w : World μ} (h : O.protocol.Lawful trace w) :
    O.Grounded trace w := by
  induction h with
  | start memory => exact grounded_start memory
  | @step trace w w' t s reply _ allowed world ih =>
    exact ⟨ih.tables_after allowed.2 world, ih.rosters_after t world, ih.jobs_after allowed.2 world⟩
  | took _ _ jobs world ih =>
    refine ⟨?_, ?_, fun job hjob => ih.jobs job (jobs.mem_iff.mpr (List.mem_cons_of_mem _ hjob))⟩
    · intro b
      rw [World.bus, world.1]
      exact ih.tables b
    · intro b topic x hx
      rw [World.bus, world.1] at hx
      exact (ih.rosters b topic x hx).imp_right fun he => he.cons _
  | woke _ _ _ world ih =>
    refine ⟨?_, ?_, fun job hjob => ih.jobs job (world.jobs.mem_iff.mp hjob)⟩
    · intro b
      rw [World.bus, world.buses]
      exact ih.tables b
    · intro b topic x hx
      rw [World.bus, world.buses] at hx
      exact (ih.rosters b topic x hx).imp_right fun he => he.cons _
  | rested _ world ih =>
    refine ⟨?_, ?_, fun job hjob => ih.jobs job (world.jobs.mem_iff.mp hjob)⟩
    · intro b
      rw [World.bus, world.buses]
      exact ih.tables b
    · intro b topic x hx
      rw [World.bus, world.buses] at hx
      exact ih.rosters b topic x hx

/-- The outlook is right about everything that is known by now. -/
structure Covers (O : Outlook) (trace : Trace μ) (w : World μ) : Prop where
  settings : ∀ (b : BusId) bus, w.buses[b]? = some bus → bus.settings = O.settings b
  tables : ∀ (b : BusId) bus type table, w.buses[b]? = some bus →
    bus.tables.get? type = some table → table = O.table b type
  enrolled : ∀ b s, Enrolled trace b s → O.enrolled b s

theorem Covers.earlier (deeds : Trace μ) {trace : Trace μ} {w w' : World μ}
    (h : O.Covers (deeds ++ trace) w') (hextend : w'.BusesExtend w) : O.Covers trace w := by
  constructor
  · intro b bus hbus
    obtain ⟨bus', hbus', hext⟩ := hextend b bus hbus
    exact hext.settings.symm.trans (h.settings b bus' hbus')
  · intro b bus type table hbus htable
    obtain ⟨bus', hbus', hext⟩ := hextend b bus hbus
    exact h.tables b bus' type table hbus' (hext.tables type table htable)
  · rintro b s ⟨t, owner, added, hmem, hs⟩
    exact h.enrolled b s ⟨t, owner, added, List.mem_append_right _ hmem, hs⟩

theorem trusts_step {trace : Trace μ} {w w' : World μ} {t : Turn} {s : Step μ} {reply : s.Reply}
    (hground : O.Grounded trace w) {g : Standing} (hallows : O.Allows g s)
    (hrun : s.run w = some (reply, w')) (hcovers : O.Covers ((t, .step s reply) :: trace) w') :
    O.Trusts s reply := by
  have hearlier : O.Covers trace w := Covers.earlier [_] hcovers (Step.run_effect hrun).buses
  cases s with
  | readBus b =>
    obtain ⟨bus, hbus, heq⟩ := Option.map_eq_some_iff.mp hrun
    obtain ⟨rfl, rfl⟩ := Prod.mk.inj heq
    have hsame := World.bus_of_getElem? hbus
    refine ⟨hearlier.settings b bus hbus, ?_, ?_⟩
    · intro type table htable
      exact ⟨hearlier.tables b bus type table hbus htable,
        hground.tables b type table (hsame ▸ htable)⟩
    · intro topic x hx
      exact (hground.rosters b topic x (hsame ▸ hx)).imp_right (hearlier.enrolled b x)
  | computeTable t' b type =>
    cases hrun
    exact Declarations.table_carries _ _
  | keepTable b type table =>
    obtain ⟨bus, hbus, heq⟩ := Option.map_eq_some_iff.mp hrun
    obtain ⟨rfl, rfl⟩ := Prod.mk.inj heq
    have hopen := (List.getElem?_eq_some_iff.mp hbus).1
    have hbus' : (w.setBus b (bus.keepTable type table).2).buses[b]? = some _ :=
      List.getElem?_set_self hopen
    have hkept := bus.get?_keepTable type table
    refine ⟨hcovers.tables b _ type _ hbus' hkept, hground.tables_after hallows hrun b type _ ?_⟩
    rw [World.bus_setBus _ _ _ hopen]
    exact hkept
  | pick e place =>
    cases reply with
    | none => trivial
    | some job =>
      have hmem := (Step.run_effect hrun).jobs.mem_iff.mp (List.mem_append_left _ List.mem_cons_self)
      have htrust := hground.jobs job hmem
      cases job with
      | delivery d executor => exact htrust
      | work label body => trivial
  | _ => trivial

theorem reliable : O.protocol.Reliable (O.Covers (μ := μ)) := by
  constructor
  · exact fun deeds _ _ _ hextend hcovers => Covers.earlier deeds hcovers hextend
  · intro trace w t s reply hlawful
    generalize htrace : (t, Deed.step s reply) :: trace = trace' at hlawful
    induction hlawful with
    | start memory => cases htrace
    | step before allowed world ih =>
      cases htrace
      exact trusts_step (grounded before) allowed.2 world
    | took => cases htrace
    | woke => cases htrace
    | rested before world ih =>
      exact fun hcovers => ih htrace (Covers.earlier [] hcovers (Step.buses_of_eq world.buses))
  · intro trace w t job hlawful
    generalize htrace : (t, Deed.took job) :: trace = trace' at hlawful
    induction hlawful with
    | start memory => cases htrace
    | step => cases htrace
    | took before idle jobs world ih =>
      cases htrace
      exact fun _ => (grounded before).jobs job (jobs.mem_iff.mpr List.mem_cons_self)
    | woke => cases htrace
    | rested before world ih =>
      exact fun hcovers => ih htrace (Covers.earlier [] hcovers (Step.buses_of_eq world.buses))

/-- What is known at the end of a trace. -/
def of (trace : Trace μ) (w : World μ) : Outlook where
  settings b := (w.bus b).settings
  table b type := ((w.bus b).tables.get? type).getD []
  enrolled := Enrolled trace

theorem of_covers (trace : Trace μ) (w : World μ) : (of trace w).Covers trace w := by
  refine ⟨?_, ?_, fun _ _ h => h⟩
  · intro b bus hbus
    exact congrArg Bus.settings (World.bus_of_getElem? hbus).symm
  · intro b bus type table hbus htable
    have hsame := World.bus_of_getElem? hbus
    simp only [of, hsame, htable, Option.getD_some]

end Outlook

/-- Every run follows the protocol. -/
theorem Run.protocol {β : Behaviour μ} {depth : Nat} {memory : μ} {body : Body μ α}
    {trace : Trace μ} {m : Machine μ α} (h : Run β depth memory body trace m) :
    let O := Outlook.of trace m.world
    O.protocol.Lawful trace m.world ∧ ∀ t, O.protocol.Orderly trace m t :=
  Conduct.Run.lawful (Outlook.governs β depth body) Outlook.reliable h (Outlook.of_covers ..)

end PubSub
