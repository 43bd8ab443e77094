import PubSub.Proofs.Steady
import PubSub.Proofs.Stories

/-!
# Resolution

Which handlers an event reaches is read off two tables of its bus: the types that the event is
assignable to, each once and with a route, and the subscriptions for each type. In every state that a
bus can come to, the two fit together.
-/
namespace PubSub

open Activities Program

variable {μ α : Type}

/-- The roster shows a log, and each table names a type once and takes its events to every type that it
names. -/
structure Bus.IsSound (bus : Bus) : Prop where
  roster : ∃ log, bus.roster.Represents log
  tables : ∀ type table, bus.tables.get? type = some table →
    table.topics.Nodup ∧ table.Carries type

namespace Bus

theorem isSound_fresh (settings : BusSettings) (discipline : Discipline) :
    (fresh settings discipline).IsSound := ⟨⟨[], Roster.represents_empty⟩, fun _ _ => nofun⟩

theorem IsSound.of_contents {last : World μ} {g : Activities} {s : Step μ} {reply : s.Reply} {b : BusId}
    {bus bus' : Bus} (h : bus.IsSound) (hallows : Activities.Allows last g s)
    (hcontents : s.Contents reply b bus bus') : bus'.IsSound := by
  obtain ⟨⟨log, hlog⟩, htables⟩ := h
  cases hcontents with
  | same roster tables => exact ⟨⟨log, roster ▸ hlog⟩, tables ▸ htables⟩
  | @kept type table step roster tables =>
    subst step
    refine ⟨⟨log, roster ▸ hlog⟩, fun type' table' htable => ?_⟩
    rw [tables, keepTable] at htable
    split at htable
    · exact htables type' table' htable
    · rw [Keyed.get?_insert] at htable
      split at htable
      · rename_i htype
        cases htable
        exact htype ▸ hallows
      · exact htables type' table' htable
  | @enrolled owner added deed roster tables =>
    refine ⟨?_, tables ▸ htables⟩
    cases deed
    by_cases hpresent : owner ∈ log.owners
    · rw [hlog.enrol_present hpresent] at roster
      cases roster
    · obtain ⟨roster', henrol, hrepresents⟩ := hlog.enrol hpresent hallows.1 hallows.2
      rw [henrol] at roster
      exact ⟨_, Option.some.inj roster ▸ hrepresents⟩
  | @dismissed owner removed roster tables =>
    refine ⟨?_, tables ▸ htables⟩
    by_cases hpresent : owner ∈ log.owners
    · obtain ⟨⟨_, held⟩, hmem, rfl⟩ := List.mem_map.mp hpresent
      obtain ⟨roster', hdismiss, hrepresents⟩ := hlog.dismiss hmem
      rw [hdismiss] at roster
      cases roster
      exact ⟨_, hrepresents⟩
    · rw [hlog.dismiss_absent hpresent] at roster
      cases roster

end Bus

theorem Activities.isSound_of_lawful {last : World μ} {trace : Trace μ} {w : World μ}
    (h : (conduct last).Lawful trace w) (b : BusId) : (w.bus b).IsSound := by
  have hsame : ∀ {w w' : World μ}, w'.buses = w.buses → (w.bus b).IsSound → (w'.bus b).IsSound := by
    intro w w' hbuses hsound
    rwa [World.bus, hbuses]
  induction h with
  | start => exact Bus.isSound_fresh _ _
  | step _ allowed world ih => exact ih.of_contents allowed (Step.contents world b)
  | took _ _ _ world ih => exact hsame world.1 ih
  | woke _ _ _ world ih => exact hsame world.buses ih
  | rested _ world ih => exact hsame world.buses ih

/-- A route delivers nothing but what its handler takes. -/
theorem Route.fits_of_follow {route : Route} {event : Event} {topic : Topic} {object : Object}
    (h : route.follow event topic = some object) : object.Fits topic := by
  induction route generalizing event with
  | cast source target c =>
    rw [follow] at h
    split at h
    · rename_i hmatch
      cases h
      exact hmatch.2 ▸ c.fits event
    · cases h
  | enter source parent embedding rest ih =>
    rw [follow] at h
    split at h
    · exact ih h
    · cases h

namespace Roster

variable {r : Roster} {log : Log}

theorem map_select (r : Roster) (table : Table) :
    (r.select table).map Selection.subscription = table.topics.flatMap r.on := by
  rw [select, List.map_flatMap, Table.topics, List.flatMap_map]
  refine List.flatMap_congr fun entry _ => ?_
  rw [List.map_map]
  exact List.map_id _

theorem Represents.flatten_byOwner (h : r.Represents log) :
    r.byOwner.values.flatten = log.subscriptions := by
  rw [Keyed.values, h.byOwner_eq, ← List.flatMap_def]
  rfl

theorem Represents.mem_on_iff (h : r.Represents log) {topic : Topic} {s : Subscription} :
    s ∈ r.on topic ↔ s ∈ r.byOwner.values.flatten ∧ s.topic = topic := by
  rw [h.on_eq, h.flatten_byOwner, List.mem_filter, decide_eq_true_iff]

/-- No subscription is found twice by types that are all different. -/
theorem Represents.nodup_on (h : r.Represents log) {topics : List Topic} (htopics : topics.Nodup) :
    (topics.flatMap r.on).Nodup := by
  have hall : log.subscriptions.Nodup := h.proper.ids_nodup.of_map Subscription.id
  refine List.nodup_flatMap.mpr ⟨fun topic _ => ?_, htopics.imp fun hne s hs hs' => ?_⟩
  · rw [h.on_eq]
    exact hall.filter _
  · have htopic := (h.mem_on_iff.mp hs).2
    have htopic' := (h.mem_on_iff.mp hs').2
    exact hne (htopic.symm.trans htopic')

end Roster

namespace World

variable (w : World μ) (b : BusId) (type : EventType)

/-- The table that a bus has for an event type, or would compute now. -/
def tableFor : Table := ((w.bus b).tables.get? type).getD (w.declarations.table type)

/-- On this bus, events of this type reach these handlers by this table. -/
structure Resolves (table : Table) (found : List Selection) : Prop where
  in_order : found.map Selection.subscription = table.topics.flatMap (w.bus b).roster.on
  topics_nodup : table.topics.Nodup
  /-- Each subscription occurs once at most. -/
  ids_nodup : (found.map fun x => x.subscription.id).Nodup
  /-- Types are compared as they are, not by their names. -/
  mem_iff : ∀ s, s ∈ found.map Selection.subscription ↔
    s ∈ (w.bus b).roster.byOwner.values.flatten ∧ s.topic ∈ table.topics
  /-- The handler's code runs, on an object of the type that the handler is declared for. -/
  runs : ∀ x ∈ found, ∀ event, event.type = type → ∃ object, object.Fits x.subscription.topic ∧
    ∀ (client : Client μ) (t : Thread) (post : PostId) (place : Nat),
      let i : Invocation := ⟨post, place, b, x.subscription, event⟩
      runHandler client t ⟨i, x.route⟩ = exclusively t b x.subscription (do
        Proc.record t (.called i object)
        let reaction ← client.handle x.subscription.body object
        Proc.record t (.ended i reaction)
        return reaction)
  nonempty_iff : found ≠ [] ↔ ∃ topic ∈ table.topics, topic ∈ (w.bus b).roster.topics

variable {w b type}

theorem tableFor_sound (h : (w.bus b).IsSound) :
    (w.tableFor b type).topics.Nodup ∧ (w.tableFor b type).Carries type := by
  rw [tableFor]
  cases htable : (w.bus b).tables.get? type with
  | some table => exact h.tables type table htable
  | none => exact ⟨Declarations.nodup_topics _ _, Declarations.table_carries _ _⟩

theorem resolves_select (h : (w.bus b).IsSound) {table : Table} (hnodup : table.topics.Nodup)
    (hcarries : table.Carries type) :
    w.Resolves b type table ((w.bus b).roster.select table) := by
  obtain ⟨log, hlog⟩ := h.roster
  have horder := (w.bus b).roster.map_select table
  have hmem : ∀ s, s ∈ ((w.bus b).roster.select table).map Selection.subscription ↔
      s ∈ (w.bus b).roster.byOwner.values.flatten ∧ s.topic ∈ table.topics := by
    intro s
    simp only [horder, List.mem_flatMap, hlog.mem_on_iff]
    constructor
    · rintro ⟨topic, htopic, hs, rfl⟩
      exact ⟨hs, htopic⟩
    · rintro ⟨hs, htopic⟩
      exact ⟨_, htopic, hs, rfl⟩
  refine ⟨horder, hnodup, ?_, hmem, fun x hx event htype => ?_, ?_⟩
  · have hids : ((w.bus b).roster.byOwner.values.flatten.map Subscription.id).Nodup :=
      hlog.flatten_byOwner ▸ hlog.proper.ids_nodup
    rw [← Function.comp_def, ← List.map_map]
    refine (horder ▸ hlog.nodup_on hnodup).map_on fun s hs s' hs' hid => ?_
    exact List.inj_on_of_nodup_map hids ((hmem s).mp hs).1 ((hmem s').mp hs').1 hid
  · obtain ⟨entry, hentry, hx⟩ := List.mem_flatMap.mp hx
    obtain ⟨s, hs, rfl⟩ := List.mem_map.mp hx
    obtain ⟨object, hobject⟩ := hcarries entry hentry
    have htopic : s.topic = entry.1 := (hlog.mem_on_iff.mp hs).2
    have hfollow : entry.2.follow event s.topic = some (object event) :=
      (hobject event s.topic).trans (if_pos ⟨htype, htopic⟩)
    refine ⟨object event, Route.fits_of_follow hfollow, fun client t post place => ?_⟩
    simp only [runHandler, hfollow]
  · simp only [hlog.shows.mem_topics_iff, ← hlog.flatten_byOwner]
    constructor
    · intro hfound
      obtain ⟨x, hx⟩ := List.exists_mem_of_ne_nil _ hfound
      obtain ⟨hs, htopic⟩ := (hmem _).mp (List.mem_map_of_mem hx)
      exact ⟨_, htopic, _, hs, rfl⟩
    · rintro ⟨_, htopic, s, hs, rfl⟩ hnil
      have hfound := (hmem s).mpr ⟨hs, htopic⟩
      rw [hnil] at hfound
      cases hfound

end World

/-- Between these worlds handlers have been looked up on a bus. The bus may have kept a table, and
something may have been written down that is about no post. -/
structure World.LooksUp (w w' : World μ) (b : BusId) : Prop where
  length : w'.buses.length = w.buses.length
  bus : ∃ tables, w'.bus b = { w.bus b with tables }
  executors : w'.executors = w.executors
  memory : w'.memory = w.memory
  recorded : ∀ keep : Occurrence → Bool, (∀ o, o.isFree = true → keep o = false) →
    w'.recorded keep = w.recorded keep

namespace World

variable {w w' w'' : World μ} {b : BusId}

theorem LooksUp.refl (w : World μ) (b : BusId) : w.LooksUp w b :=
  ⟨rfl, ⟨_, rfl⟩, rfl, rfl, fun _ _ => rfl⟩

theorem LooksUp.trans (h : w.LooksUp w' b) (h' : w'.LooksUp w'' b) : w.LooksUp w'' b := by
  obtain ⟨tables, hbus⟩ := h.bus
  obtain ⟨tables', hbus'⟩ := h'.bus
  refine ⟨h'.length.trans h.length, ⟨tables', ?_⟩, h'.executors.trans h.executors,
    h'.memory.trans h.memory, fun keep hkeep => (h'.recorded keep hkeep).trans (h.recorded keep hkeep)⟩
  rw [hbus', hbus]

theorem looksUp_log (w : World μ) (t : Thread) (r : LogRecord) (b : BusId) :
    w.LooksUp (w.record t (.logged r)) b := by
  refine ⟨rfl, ⟨_, rfl⟩, rfl, rfl, fun keep hkeep => ?_⟩
  rw [recorded_record, List.filter_singleton, hkeep _ rfl]
  exact List.append_nil _

theorem looksUp_recordAll (w : World μ) (t : Thread) {l : List Occurrence}
    (hl : ∀ o ∈ l, o.isFree = true) (b : BusId) : w.LooksUp (w.recordAll t l) b := by
  have hall := w.recordAll_eq t l
  refine ⟨by rw [hall], ⟨(w.bus b).tables, by rw [hall]; rfl⟩, by rw [hall], by rw [hall], ?_⟩
  intro keep hkeep
  have hnone : l.filter keep = [] := List.filter_eq_nil_iff.mpr fun o ho => by
    rw [hkeep o (hl o ho)]
    exact Bool.false_ne_true
  rw [recorded_recordAll, hnone, List.append_nil]

theorem looksUp_setBus (hb : b < w.buses.length) (tables : Keyed EventType Table) :
    w.LooksUp (w.setBus b { w.bus b with tables }) b :=
  ⟨w.length_setBus .., ⟨tables, w.bus_setBus b _ hb⟩, rfl, rfl, fun _ _ => rfl⟩

end World

section Leads

variable {w : World μ} {b : BusId}

theorem exists_leads_tableOf (t : Thread) (type : EventType) (hb : b < w.buses.length) :
    ∃ w', (tableOf t b type).Leads w (w.tableFor b type) w' ∧ w.LooksUp w' b := by
  rw [World.tableFor]
  cases htable : (w.bus b).tables.get? type with
  | some table =>
    refine ⟨w, (leads_readBus hb).bind ?_, .refl w b⟩
    rw [htable]
    exact .done table w
  | none =>
    generalize hrun : (w.declarations.runs type).map
      (fun run => Occurrence.declared b run.1 run.2) = declared
    have hfree : ∀ o ∈ declared, o.isFree = true := by
      subst hrun
      intro o ho
      obtain ⟨run, -, rfl⟩ := List.mem_map.mp ho
      rfl
    have hnoted := w.looksUp_recordAll t hfree b
    have hopen : b < (w.recordAll t declared).buses.length := hnoted.length.symm ▸ hb
    have hsame : (w.recordAll t declared).bus b = w.bus b := by rw [World.recordAll_eq]; rfl
    have hbus' := World.getElem?_buses hopen
    rw [hsame] at hbus'
    have hkept := World.looksUp_setBus hopen ((w.bus b).tables.insert type (w.declarations.table type))
    rw [hsame] at hkept
    refine ⟨_, (leads_readBus hb).bind ?_, hnoted.trans hkept⟩
    rw [htable]
    refine .step rfl (by rw [Step.run, hrun]) (.step rfl ?_ (.done _ _))
    rw [Step.run, hbus', Option.map_some, Bus.keepTable, htable]
    rfl

theorem exists_leads_selection (t : Thread) (type : EventType) (hb : b < w.buses.length) :
    ∃ w', (selection t b type).Leads w ((w.bus b).roster.select (w.tableFor b type)) w' ∧
      w.LooksUp w' b := by
  obtain ⟨w', hrun, hlooks⟩ := exists_leads_tableOf t type hb
  obtain ⟨tables, hsame⟩ := hlooks.bus
  refine ⟨w', hrun.bind ((leads_readBus (hlooks.length ▸ hb)).bind ?_), hlooks⟩
  rw [hsame]
  exact .done _ w'

theorem exists_leads_findHandlers (t : Thread) (type : EventType) (hb : b < w.buses.length) :
    ∃ w', (findHandlers t b type).Leads w ((w.bus b).roster.select (w.tableFor b type)) w' ∧
      w.LooksUp w' b := by
  obtain ⟨w', hrun, hlooks⟩ := exists_leads_selection t type hb
  have hlog : ∃ r, (findHandlers t b type).Leads w ((w.bus b).roster.select (w.tableFor b type))
      (w'.record t (.logged r)) := by
    cases hempty : ((w.bus b).roster.select (w.tableFor b type)).isEmpty <;>
    · constructor
      refine hrun.bind ((leads_readBus (hlooks.length ▸ hb)).bind ?_)
      rw [hempty]
      exact (leads_record w' t _).bind (.done _ _)
  obtain ⟨r, hlog⟩ := hlog
  exact ⟨_, hlog, hlooks.trans (w'.looksUp_log t r b)⟩

end Leads

/-- In every state that a bus can come to, a post finds the handlers that are registered for a type that
its event is assignable to, each once, by type and then in the order of registration. The bus tells
clients about these types, and that there are handlers just when there are. -/
theorem resolution_reaches_assignable {β : Behaviour μ} {depth : Nat} {memory : μ} {body : Body μ α}
    {trace : Trace μ} {m : Machine μ α} (h : Run β depth memory body trace m) {b : BusId}
    (hb : b < m.world.buses.length) (t : Thread) (type : EventType) :
    let table := m.world.tableFor b type
    let found := (m.world.bus b).roster.select table
    m.world.Resolves b type table found ∧
      (∃ w', (findHandlers t b type).alone m.world = some (found, w')) ∧
      ∀ n, (∃ w', (β.perform (n + 1) t (.assignable b type)).alone m.world = some (table.topics, w')) ∧
        ∃ w', (β.perform (n + 1) t (.reaches b type)).alone m.world = some (!found.isEmpty, w') := by
  intro table found
  have hsound := Activities.isSound_of_lawful h.activities.1 b
  obtain ⟨hnodup, hcarries⟩ : table.topics.Nodup ∧ table.Carries type := World.tableFor_sound hsound
  obtain ⟨w₁, hfind, -⟩ := exists_leads_findHandlers t type hb
  obtain ⟨w₂, htable, -⟩ := exists_leads_tableOf t type hb
  obtain ⟨w₃, hselect, -⟩ := exists_leads_selection t type hb
  refine ⟨World.resolves_select hsound hnodup hcarries, ⟨w₁, hfind.alone⟩, fun n =>
    ⟨⟨w₂, (htable.bind ?_).alone⟩, w₃, (hselect.bind ?_).alone⟩⟩
  · exact .done _ w₂
  · exact .done _ w₃

/-- Two types share a name. A handler for the other one is not found, and the rest come in the order of
the table and not in the order of their registration. -/
theorem resolution_reaches_assignable_among_twins :
    let tick : EventType := ⟨"Tick", "app::Tick", 0⟩
    let twin : EventType := ⟨"Twin", "app::Tick", 0⟩
    let wide : Topic := .interface "Wide" "app::Wide"
    let crew : Subscriber := ⟨⟨"Crew", 0⟩, "crew",
      [⟨"all", true, .one .root, ⟨0⟩⟩, ⟨"other", true, .one (.event twin), ⟨1⟩⟩,
        ⟨"wide", false, .one wide, ⟨2⟩⟩, ⟨"own", true, .one (.event tick), ⟨3⟩⟩]⟩
    let β : Behaviour Unit := {
      handle _ _ := .done .fine
      observe _ _ := .done none
      work _ := .done none }
    let body : Body Unit Unit :=
      .step (.declare tick [.to wide (.through none wide)]) fun _ =>
        .step (.openBus .standard .publisher) fun b => .step (.register b crew) fun _ => .done ()
    ∃ trace m, Run β 1 () body trace m ∧ 0 < m.world.buses.length ∧
      let table := m.world.tableFor 0 tick
      let found := (m.world.bus 0).roster.select table
      found.map (·.subscription.method) = ["own", "wide", "all"] ∧
      m.world.Resolves 0 tick table found ∧
      (∃ w', (findHandlers .main 0 tick).alone m.world = some (found, w')) ∧
      ∀ n, (∃ w', (β.perform (n + 1) .main (.assignable 0 tick)).alone m.world =
          some (table.topics, w')) ∧
        ∃ w', (β.perform (n + 1) .main (.reaches 0 tick)).alone m.world =
          some (!found.isEmpty, w') := by
  intro tick twin wide crew β body
  have hseen : ((Machine.start β 1 () body).play β 1 (List.replicate 6 (.caller 0))).any (fun (_, m) =>
      0 < m.world.buses.length ∧
      ((m.world.bus 0).roster.select (m.world.tableFor 0 tick)).map (·.subscription.method) =
        ["own", "wide", "all"]) = true := by
    decide +kernel
  obtain ⟨trace, m, hrun, hseen⟩ := Run.exists_of_play hseen
  obtain ⟨hopen, hfound⟩ := of_decide_eq_true hseen
  exact ⟨trace, m, hrun, hopen, hfound, resolution_reaches_assignable hrun hopen .main tick⟩

end PubSub
