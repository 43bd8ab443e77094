import PubSub.Proofs.Progress
import PubSub.Proofs.Registration
import PubSub.Proofs.Resolution
import PubSub.Proofs.SharedRosters

/-!
# What posts see

A post looks at the roster of its bus at one moment, between the calls that register and unregister
objects. All that it does afterwards depends on what it saw then.
-/
namespace PubSub

open Conduct

variable {μ α : Type}

/-- What a deed changes in the log of a bus, which is empty when the bus is opened. -/
def Deed.registers (b : BusId) (log : Log) : Deed μ → Log
  | .step (.openBus _ _) opened => if opened = b then [] else log
  | .step (.enrol b' owner added) true => if b' = b then log ++ [(owner, added)] else log
  | .step (.dismiss b' owner) (some _) => if b' = b then log.filter (·.1 ≠ owner) else log
  | _ => log

/-- The log of all calls on a bus that are over. -/
def Trace.registrations (trace : Trace μ) (b : BusId) : Log :=
  trace.foldr (fun entry log => entry.2.registers b log) []

/-- An owner whose object has registered as it declares itself, with all its handlers. -/
def Subscriber.Registers (entry : SubscriberId × List Subscription) : Prop :=
  ∃ s : Subscriber, s.owner = entry.1 ∧ s.subscribe = .ok entry.2

/-- The roster of a bus is what the calls that are over have made of it. -/
structure World.IsBetween (w : World μ) (b : BusId) (log : Log) : Prop where
  represents : (w.bus b).roster.Represents log
  whole : ∀ entry ∈ log, Subscriber.Registers entry

namespace World.IsBetween

variable {w w' : World μ} {b b' : BusId} {log : Log}

theorem of_roster_eq (h : w.IsBetween b log) (hroster : (w'.bus b).roster = (w.bus b).roster) :
    w'.IsBetween b log := ⟨hroster ▸ h.represents, h.whole⟩

/-- An absent object comes to the end of the log, with all its handlers. -/
theorem enrol (h : w.IsBetween b log) (hb : b < w.buses.length) {s : Subscriber}
    {added : List Subscription} (hadded : s.subscribe = .ok added) {roster : Roster}
    (henrol : (w.bus b').roster.enrol s.owner added = some roster) :
    (w.setBus b' { w.bus b' with roster }).IsBetween b
      (Deed.registers (μ := μ) b log (.step (.enrol b' s.owner added) true)) := by
  rw [Deed.registers]
  split
  · rename_i heq
    subst heq
    have habsent : s.owner ∉ log.owners := fun hpresent => by
      rw [h.represents.enrol_present hpresent] at henrol
      cases henrol
    obtain rfl := Subscriber.subscribe_eq_ok hadded
    obtain ⟨roster', henrol', hroster⟩ :=
      h.represents.enrol habsent s.owner_subscriptions s.nodup_subscriptions
    obtain rfl := Option.some.inj (henrol.symm.trans henrol')
    refine ⟨by rw [World.bus_setBus _ _ _ hb]; exact hroster, ?_⟩
    exact List.forall_mem_append.mpr ⟨h.whole, List.forall_mem_singleton.mpr ⟨s, rfl, hadded⟩⟩
  · rename_i hne
    exact h.of_roster_eq (by rw [World.bus_setBus_of_ne _ _ hne])

/-- An object that is present leaves the log, with all that it had. -/
theorem dismiss (h : w.IsBetween b log) (hb : b < w.buses.length) {owner : SubscriberId}
    {removed : List Subscription} {roster : Roster}
    (hdismiss : (w.bus b').roster.dismiss owner = some (removed, roster)) :
    (w.setBus b' { w.bus b' with roster }).IsBetween b
      (Deed.registers (μ := μ) b log (.step (.dismiss b' owner) (some removed))) := by
  rw [Deed.registers]
  split
  · rename_i heq
    subst heq
    by_cases hpresent : owner ∈ log.owners
    · obtain ⟨⟨_, held⟩, hmem, rfl⟩ := List.mem_map.mp hpresent
      obtain ⟨roster', hdismiss', hroster⟩ := h.represents.dismiss hmem
      obtain ⟨-, rfl⟩ := Prod.mk.inj (Option.some.inj (hdismiss.symm.trans hdismiss'))
      refine ⟨by rw [World.bus_setBus _ _ _ hb]; exact hroster, ?_⟩
      exact fun entry hentry => h.whole entry (List.mem_of_mem_filter hentry)
    · rw [h.represents.dismiss_absent hpresent] at hdismiss
      cases hdismiss
  · rename_i hne
    exact h.of_roster_eq (by rw [World.bus_setBus_of_ne _ _ hne])

/-- The bus that is opened has an empty log. -/
theorem openBus (h : b < w.buses.length → w.IsBetween b log) (settings : BusSettings)
    (discipline : Discipline) (hb : b < w.buses.length + 1) :
    World.IsBetween { w with buses := w.buses ++ [.fresh settings discipline] } b
      (Deed.registers (μ := μ) b log (.step (.openBus settings discipline) w.buses.length)) := by
  have hroster := (Step.bus_openBus w settings discipline b).2.1
  rw [Deed.registers]
  split
  · rename_i heq
    subst heq
    have hnone : (w.bus w.buses.length).roster = .empty := by
      rw [World.bus, List.getElem?_eq_none (Nat.le_refl _)]
      rfl
    exact ⟨(hroster.trans hnone) ▸ Roster.represents_empty, List.forall_mem_nil _⟩
  · rename_i hne
    have hopen : b < w.buses.length :=
      Nat.lt_of_le_of_ne (Nat.le_of_lt_succ hb) fun heq => hne heq.symm
    exact (h hopen).of_roster_eq hroster

end World.IsBetween

theorem Step.roster_keepTable {w w' : World μ} {b' : BusId} {type : EventType} {table kept : Table}
    (hrun : (Step.keepTable b' type table).run w = some (kept, w')) (b : BusId) :
    (w'.bus b).roster = (w.bus b).roster := by
  obtain ⟨bus, hbus, heq⟩ := Option.map_eq_some_iff.mp hrun
  obtain ⟨-, rfl⟩ := Prod.mk.inj heq
  rw [World.bus_setBus_eq]
  split
  · rename_i hb
    rw [← hb.1, World.bus_of_getElem? hbus]
    exact Bus.roster_keepTable ..
  · rfl

namespace Rounds

variable {last : World μ} {trace : Trace μ} {w w' : World μ} {b : BusId} {log : Log}

/-- One step makes a whole change of the log of an open bus, or none. -/
theorem isBetween_step {g : Rounds} {s : Step μ} {reply : s.Reply}
    (h : b < w.buses.length → w.IsBetween b log) (hallows : Allows last g s)
    (hrun : s.run w = some (reply, w')) (hb : b < w'.buses.length) :
    w'.IsBetween b (Deed.registers b log (.step s reply)) := by
  have hsame : (∀ settings discipline, s ≠ .openBus settings discipline) →
      (w'.bus b).roster = (w.bus b).roster → w'.IsBetween b log := fun hs hroster =>
    (h (Step.length_buses hrun hs ▸ hb)).of_roster_eq hroster
  cases s with
  | enrol b' owner added =>
    obtain ⟨s, rfl, hadded⟩ := hallows
    rw [Step.run] at hrun
    split at hrun <;> cases hrun
    · rw [World.length_setBus] at hb
      exact (h hb).enrol hb hadded ‹_›
    · exact h hb
  | dismiss b' owner =>
    rw [Step.run] at hrun
    split at hrun <;> cases hrun
    · rw [World.length_setBus] at hb
      exact (h hb).dismiss hb ‹_›
    · exact h hb
  | openBus settings discipline =>
    cases hrun
    rw [List.length_append, List.length_singleton] at hb
    exact World.IsBetween.openBus h settings discipline hb
  | keepTable b' type table => exact hsame (fun _ _ heq => by cases heq) (Step.roster_keepTable hrun b)
  | _ => exact hsame (fun _ _ heq => by cases heq) ((Step.run_effect hrun).tables rfl b).1

/-- At any moment, the roster of a bus is what the calls that are over have made of it. -/
theorem isBetween (h : (conduct last).Lawful trace w) (hb : b < w.buses.length) :
    w.IsBetween b (trace.registrations b) := by
  have hcarry : ∀ {w w' : World μ} {log : Log}, w'.buses = w.buses →
      (b < w.buses.length → w.IsBetween b log) → b < w'.buses.length → w'.IsBetween b log := by
    intro w w' log hbuses hbetween hb
    have hbus : w'.bus b = w.bus b := by rw [World.bus, hbuses, World.bus]
    have hbetween := hbetween (hbuses ▸ hb)
    exact ⟨hbus ▸ hbetween.represents, hbetween.whole⟩
  induction h with
  | start => cases hb
  | step _ allowed world ih => exact isBetween_step ih allowed world hb
  | took _ _ _ world ih => exact hcarry world.1 ih hb
  | woke _ _ _ world ih => exact hcarry world.buses ih hb
  | rested _ world ih => exact hcarry world.buses ih hb

/-- What is written down adds no view and no number. -/
theorem say_aside (last : World μ) (g : Rounds) (o : Occurrence) : (g.say last o).views = g.views ∧
    ∀ id, (g.say last o).number = some id → g.number = some id := by
  have hvisit : ∀ (g : Rounds) (i : Invocation), (g.visit i).views = g.views ∧
      ∀ id, (g.visit i).number = some id → g.number = some id := by
    intro g i
    unfold visit
    split <;> exact ⟨rfl, fun _ h => h⟩
  cases o with
  | selected => exact ⟨rfl, nofun⟩
  | submitted i => exact hvisit _ i
  | called i object =>
    simp only [say]
    cases last.visit? (.called i object) with
    | none => exact ⟨rfl, fun _ h => h⟩
    | some j => exact hvisit _ j
  | _ => exact ⟨rfl, fun _ h => h⟩

/-- A number is drawn, or the thread had it before. -/
theorem number_after {g : Rounds} {s : Step μ} {reply : s.Reply} {id : PostId}
    (h : (g.after last s reply).number = some id) :
    Deed.step s reply = .step .serial id ∨ g.number = some id := by
  cases s with
  | serial =>
    cases h
    exact .inl rfl
  | record t o => exact .inr ((say_aside last g o).2 id h)
  | _ => exact .inr h

/-- A view that a thread has had since it drew its number is new, or the thread had both before. -/
theorem views_after {g : Rounds} {s : Step μ} {reply : s.Reply} {id : PostId} {view : BusId × Bus}
    (hview : view ∈ (g.after last s reply).views) (h : (g.after last s reply).number = some id) :
    g.number = some id ∧ (Deed.step s reply = .step (.readBus view.1) view.2 ∨ view ∈ g.views) := by
  cases s with
  | serial => cases hview
  | readBus b =>
    refine ⟨h, (List.mem_cons.mp hview).imp_left ?_⟩
    rintro rfl
    rfl
  | record t o =>
    obtain ⟨hviews, hnumber⟩ := say_aside last g o
    exact ⟨hnumber id h, .inr (hviews ▸ hview)⟩
  | _ => exact ⟨h, .inr hview⟩

/-- The number of a thread's next post was drawn by the thread. -/
theorem serial_mem {t : Turn} {id : PostId} (h : ((conduct last).standing trace t).number = some id) :
    (t, .step .serial id) ∈ trace := by
  induction trace with
  | nil => cases h
  | cons entry trace ih =>
    obtain ⟨u, deed⟩ := entry
    rw [Conduct.standing_cons] at h
    split at h
    · rename_i hu
      subst hu
      cases deed with
      | step s reply =>
        rcases number_after h with hdeed | hnumber
        · exact hdeed ▸ List.mem_cons_self
        · exact List.mem_cons_of_mem _ (ih hnumber)
      | took job => exact List.mem_cons_of_mem _ (ih h)
      | woke => exact List.mem_cons_of_mem _ (ih h)
    · exact List.mem_cons_of_mem _ (ih h)

/-- A thread has had its views since it drew the number of its next post. -/
theorem exists_read {t : Turn} {id : PostId} {view : BusId × Bus}
    (hview : view ∈ ((conduct last).standing trace t).views)
    (h : ((conduct last).standing trace t).number = some id) :
    ∃ later before, trace = later ++ (t, .step (.readBus view.1) view.2) :: before ∧
      (t, .step .serial id) ∈ before := by
  have hlater : ∀ {trace : Trace μ} (entry : Turn × Deed μ),
      (∃ later before, trace = later ++ (t, .step (.readBus view.1) view.2) :: before ∧
        (t, .step .serial id) ∈ before) →
      ∃ later before, entry :: trace = later ++ (t, .step (.readBus view.1) view.2) :: before ∧
        (t, .step .serial id) ∈ before :=
    fun entry ⟨later, before, heq, hserial⟩ => ⟨entry :: later, before, congrArg _ heq, hserial⟩
  induction trace with
  | nil => cases h
  | cons entry trace ih =>
    obtain ⟨u, deed⟩ := entry
    rw [Conduct.standing_cons] at hview h
    split at h
    · rename_i hu
      subst hu
      rw [if_pos rfl] at hview
      cases deed with
      | step s reply =>
        obtain ⟨hnumber, hdeed | hold⟩ := views_after hview h
        · exact ⟨[], trace, by rw [hdeed]; rfl, serial_mem hnumber⟩
        · exact hlater _ (ih hold hnumber)
      | took job => exact hlater _ (ih hview h)
      | woke => exact hlater _ (ih hview h)
    · rename_i hu
      rw [if_neg hu] at hview
      exact hlater _ (ih hview h)

end Rounds

/-- A post selects every handler once at most: all those of an owner in the log that its event is
assignable to, or, of any other owner, none. -/
structure Log.Answers (log : Log) (table : Table) (matched : List Invocation) : Prop where
  once : (matched.map fun i => i.subscription.id).Nodup
  all : ∀ entry ∈ log, ∀ x, x ∈ entry.2 ∧ x.topic ∈ table.topics ↔
    x.id.owner = entry.1 ∧ ∃ i ∈ matched, i.subscription = x
  others : ∀ i ∈ matched, i.subscription.id.owner ∈ log.owners

theorem subscription_deliveries (id : PostId) (b : BusId) (event : Event) (found : List Selection) :
    ((deliveries id b event found).map Delivery.invocation).map Invocation.subscription =
      found.map Selection.subscription := by
  rw [deliveries, List.map_map, List.map_map]
  conv => rhs; rw [← List.zipIdx_map_fst 0 found, List.map_map]
  rfl

theorem Roster.Represents.answers {r : Roster} {log : Log} (h : r.Represents log) {table : Table}
    (htopics : table.topics.Nodup) (id : PostId) (b : BusId) (event : Event) :
    log.Answers table ((deliveries id b event (r.select table)).map Delivery.invocation) := by
  have hfound := (subscription_deliveries id b event (r.select table)).trans (r.map_select table)
  generalize (deliveries id b event (r.select table)).map Delivery.invocation = matched at hfound
  have hmem : ∀ x, (∃ i ∈ matched, i.subscription = x) ↔
      x ∈ log.subscriptions ∧ x.topic ∈ table.topics := by
    intro x
    rw [← List.mem_map, hfound, List.mem_flatMap]
    simp only [h.on_eq, List.mem_filter, decide_eq_true_iff]
    constructor
    · rintro ⟨topic, htopic, hx, rfl⟩
      exact ⟨hx, htopic⟩
    · rintro ⟨hx, htopic⟩
      exact ⟨_, htopic, hx, rfl⟩
  refine ⟨?_, fun entry hentry x => ?_, fun i hi => ?_⟩
  · have hnodup : (matched.map Invocation.subscription).Nodup := hfound ▸ h.nodup_on htopics
    rw [← Function.comp_def, ← List.map_map]
    refine hnodup.map_on fun s hs s' hs' hid => ?_
    have hs := ((hmem s).mp (List.mem_map.mp hs)).1
    have hs' := ((hmem s').mp (List.mem_map.mp hs')).1
    exact List.inj_on_of_nodup_map h.proper.ids_nodup hs hs' hid
  · rw [hmem]
    constructor
    · rintro ⟨hx, htopic⟩
      exact ⟨h.proper.owned entry hentry x hx, List.mem_flatMap.mpr ⟨entry, hentry, hx⟩, htopic⟩
    · rintro ⟨howner, hx, htopic⟩
      refine ⟨?_, htopic⟩
      obtain ⟨entry', hentry', hx⟩ := List.mem_flatMap.mp hx
      -- an owner has one entry only
      have hsame : entry'.1 = entry.1 := (h.proper.owned entry' hentry' x hx).symm.trans howner
      rwa [List.inj_on_of_nodup_map h.proper.owners_nodup hentry hentry' hsame.symm]
  · exact h.proper.owner_mem ((hmem _).mp ⟨i, hi, rfl⟩).1

variable {β : Behaviour μ} {depth : Nat} {memory : μ} {body : Body μ α} {trace : Trace μ}
  {m : Machine μ α}

/-- A handler is called by its post, or for a delivery that its post has submitted. -/
theorem Run.visited (h : Run β depth memory body trace m) {i : Invocation} {object : Object}
    (hcalled : .called i object ∈ m.world.story i.post) :
    i ∈ (m.world.story i.post).filterMap m.world.visit? := by
  obtain ⟨t, name, hmem⟩ := h.rounds.exists_record hcalled
  obtain ⟨later, before, -, hallowed⟩ := h.rounds.exists_allowed hmem
  cases hvisit : m.world.visit? (.called i object) with
  | some j =>
    have hsame : j = i := by
      rw [World.visit?] at hvisit
      split at hvisit <;> cases hvisit
      rfl
    exact List.mem_filterMap.mpr ⟨_, hcalled, hsame ▸ hvisit⟩
  | none =>
    have hvouches : Rounds.Vouches m.world ((Rounds.conduct m.world).standing before t)
      (.called i object) := hallowed
    simp only [Rounds.Vouches, hvisit, Option.elim_none] at hvouches
    exact List.mem_filterMap.mpr ⟨_, hvouches, rfl⟩

/-- A handler that is called was registered, and its bus has a table that takes the event to what the
handler gets. -/
theorem Run.called (h : Run β depth memory body trace m) {t : Turn} {name : Thread} {i : Invocation}
    {object : Object} (hmem : (t, .step (.record name (.called i object)) ()) ∈ trace) :
    Enrolled trace i.bus i.subscription ∧ m.world.Casts i object := by
  obtain ⟨later, before, -, -, -, route, hfits, hfollow⟩ := h.protocol.1.exists_allowed hmem
  exact ⟨hfits.enrolled, World.casts_of_bound ⟨route, hfits, hfollow⟩⟩

/-- A thread that looks at a bus sees it as it is at one moment. -/
theorem Run.exists_moment_of_read (h : Run β depth memory body trace m) {later before : Trace μ}
    {t : Turn}
    {b : BusId} {bus : Bus} (htrace : trace = later ++ (t, .step (.readBus b) bus) :: before) :
    ∃ m₀ : Machine μ α, Run β depth memory body before m₀ ∧ b < m₀.world.buses.length ∧
      m₀.world.bus b = bus := by
  obtain ⟨m₀, m₁, hrun, hturned⟩ := h.exists_moment htrace
  cases hturned with
  | step _ world _ =>
    obtain ⟨_, hbus, heq⟩ := Option.map_eq_some_iff.mp world
    obtain ⟨rfl, -⟩ := Prod.mk.inj heq
    exact ⟨m₀, hrun, (List.getElem?_eq_some_iff.mp hbus).1, World.bus_of_getElem? hbus⟩

/-- Between the moment at which it draws its number and the moment at which it writes down what it has
selected, a post looks at its bus. -/
theorem Run.exists_view (h : Run β depth memory body trace m) {id : PostId} {matched : List Invocation}
    (hselected : .selected id matched ∈ m.world.story id) :
    ∃ (later before : Trace μ) (m₀ : Machine μ α) (t : Turn) (b : BusId),
      trace = later ++ (t, .step (.readBus b) (m₀.world.bus b)) :: before ∧
      Run β depth memory body before m₀ ∧ b < m₀.world.buses.length ∧ (t, .step .serial id) ∈ before ∧
      (∃ name, (t, .step (.record name (.selected id matched)) ()) ∈ later) ∧
      m.world.Shows b (m₀.world.bus b) id matched := by
  obtain ⟨t, name, hmem⟩ := h.rounds.exists_record hselected
  obtain ⟨later, before, rfl, hnumber, ⟨b, bus⟩, hview, hshows⟩ := h.rounds.exists_allowed hmem
  obtain ⟨later', before, rfl, hserial⟩ := Rounds.exists_read hview hnumber
  have htrace : later ++ (t, .step (.record name (.selected id matched)) ()) ::
      (later' ++ (t, .step (.readBus b) bus) :: before) =
      (later ++ (t, .step (.record name (.selected id matched)) ()) :: later') ++
        (t, .step (.readBus b) bus) :: before := by
    rw [List.append_assoc, List.cons_append]
  obtain ⟨m₀, hrun, hb, rfl⟩ := h.exists_moment_of_read htrace
  exact ⟨_, before, m₀, t, b, htrace, hrun, hb, hserial,
    ⟨name, List.mem_append_right _ List.mem_cons_self⟩, hshows⟩

/-- Whatever handlers, observers and other threads register and unregister meanwhile: a post selects its
handlers in one view of its bus, from what the calls that were over then had made of the roster, all
of an owner's or none. These it visits one after another, and it ends when none is left or when the
last visit gave a reason to stop. Nothing changes if rosters are read and written one key after
another, under their lock. -/
theorem posts_keep_to_one_view (h : Run β depth memory body trace m) {id : PostId}
    {matched : List Invocation} (hselected : .selected id matched ∈ m.world.story id) :
    (∃ (later before : Trace μ) (m₀ : Machine μ α) (t : Turn) (b : BusId) (event : Event) (table : Table),
      trace = later ++ (t, .step (.readBus b) (m₀.world.bus b)) :: before ∧
      Run β depth memory body before m₀ ∧ (t, .step .serial id) ∈ before ∧
      (∃ name, (t, .step (.record name (.selected id matched)) ()) ∈ later) ∧
      (m.world.bus b).tables.get? event.type = some table ∧
      matched = (deliveries id b event ((m₀.world.bus b).roster.select table)).map Delivery.invocation ∧
      m₀.world.IsBetween b (before.registrations b) ∧ (before.registrations b).Answers table matched) ∧
    m.world.Pursues id matched (m.world.story id) ∧
    (∀ i object, .called i object ∈ m.world.story id →
      i ∈ (m.world.story id).filterMap m.world.visit?) ∧
    ∀ call r order x, SharedRoster.Reached call r order x → SharedRoster.Agrees call r order x := by
  refine ⟨?_, h.pursues hselected, fun i object hcalled => ?_, fun _ _ _ _ hreached => hreached.agrees⟩
  · obtain ⟨later, before, m₀, t, b, htrace, hrun, hb, hserial, hrecord, event, table, htable,
      hmatched⟩ :=
      h.exists_view hselected
    have hbetween := Rounds.isBetween hrun.rounds hb
    have htopics := ((Activities.isSound_of_lawful h.activities.1 b).tables event.type table htable).1
    refine ⟨later, before, m₀, t, b, event, table, htrace, hrun, hserial, hrecord, htable, hmatched,
      hbetween, ?_⟩
    rw [hmatched]
    exact hbetween.represents.answers htopics id b event
  · obtain rfl : i.post = id := Option.some.inj (World.mem_story.mp hcalled).2
    exact h.visited hcalled

/-- Of three handlers, the first withdraws all of them and registers another object. The post goes on
with the two others, and the new handler does not get its event. -/
theorem posts_keep_to_one_view_on_withdrawal :
    let tick : Event := ⟨⟨"Tick", "Tick", 0⟩, 0, ""⟩
    let crew : Subscriber := ⟨⟨"Crew", 0⟩, "crew",
      [⟨"leave", true, .one .root, ⟨0⟩⟩, ⟨"stay", false, .one .root, ⟨1⟩⟩,
        ⟨"last", true, .one .root, ⟨1⟩⟩]⟩
    let relief : Subscriber := ⟨⟨"Relief", 1⟩, "relief", [⟨"come", true, .one .root, ⟨1⟩⟩]⟩
    let β : Behaviour Unit := {
      handle body _ := match body.serial with
        | 0 => .step (.unregister 0 crew.owner "crew") fun _ =>
          .step (.register 0 relief) fun _ => .done .fine
        | _ => .done .fine
      observe _ _ := .done none
      work _ := .done none }
    let body : Body Unit Unit :=
      .step (.openBus .standard .publisher) fun b =>
        .step (.register b crew) fun _ => .step (.post b tick) fun _ => .done ()
    let matched : List Invocation :=
      crew.subscriptions.zipIdx.map fun (s, place) => ⟨0, place, 0, s, tick⟩
    ∃ (trace : Trace Unit) (m : Machine Unit Unit),
      Run β 2 () body trace m ∧ .selected 0 matched ∈ m.world.story 0 ∧
      (m.world.bus 0).roster.contains crew.owner = false ∧
      (m.world.bus 0).roster.contains relief.owner = true ∧
      (m.world.story 0).filterMap m.world.visit? = matched ∧
      m.world.Pursues 0 matched (m.world.story 0) ∧
      ∃ (before : Trace Unit) (b : BusId) (table : Table),
        (before.registrations b).Answers table matched := by
  intro tick crew relief β body matched
  let isSelection : Entry → Bool := fun entry =>
    match entry.occurrence with
    | .selected 0 found => found = matched
    | _ => false
  have hseen : ((Machine.start β 2 () body).play β 2 (List.replicate 35 (.caller 0))).any (fun (_, m) =>
      m.world.history.any isSelection = true ∧ (m.world.bus 0).roster.contains crew.owner = false ∧
      (m.world.bus 0).roster.contains relief.owner = true ∧
      (m.world.story 0).filterMap m.world.visit? = matched) = true := by
    decide +kernel
  obtain ⟨trace, m, hrun, hseen⟩ := Run.exists_of_play hseen
  obtain ⟨hmatched, hcrew, hrelief, hvisits⟩ := of_decide_eq_true hseen
  have hselected : .selected 0 matched ∈ m.world.story 0 := by
    obtain ⟨⟨t, o⟩, hmem, ho⟩ := List.any_eq_true.mp hmatched
    refine World.mem_story.mpr ⟨⟨t, ?_⟩, rfl⟩
    dsimp only [isSelection] at ho
    split at ho
    · obtain rfl := of_decide_eq_true ho
      exact hmem
    · cases ho
  obtain ⟨⟨_, before, _, _, b, _, table, _, _, _, _, _, _, _, hanswers⟩, hpursues, _⟩ :=
    posts_keep_to_one_view hrun hselected
  exact ⟨trace, m, hrun, hselected, hcrew, hrelief, hvisits, hpursues, before, b, table, hanswers⟩

end PubSub
