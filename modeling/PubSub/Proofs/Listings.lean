import Mathlib.Data.List.Dedup
import PubSub.Proofs.Views

/-!
# Listings of types

A bus lists the types that something is registered for, sorted by name. Its index may hand them out in
any order, and the sort may exchange types that share a name. Yet a listing has each of these types once,
and its names are the same whatever the index looks like and however the registrations came about.
-/
namespace PubSub

variable {μ α : Type}

namespace Topic

theorem ordered_mergeSort (l : List Topic) :
    ((l.mergeSort fun a b => decide (a.name ≤ b.name)).map name).Pairwise (· ≤ ·) := by
  rw [List.pairwise_map]
  have hsorted : (l.mergeSort fun a b => decide (a.name ≤ b.name)).Pairwise fun a b =>
      decide (a.name ≤ b.name) = true := by
    apply List.pairwise_mergeSort
    · intro a b c hab hbc
      exact decide_eq_true (String.le_trans (of_decide_eq_true hab) (of_decide_eq_true hbc))
    · intro a b
      simpa using String.le_total a.name b.name
  exact hsorted.imp of_decide_eq_true

/-- The types may be in several orders, but their names are in one. -/
theorem names_eq_of_perm {l l' : List Topic} (hperm : l.Perm l')
    (hordered : (l.map name).Pairwise (· ≤ ·)) (hordered' : (l'.map name).Pairwise (· ≤ ·)) :
    l.map name = l'.map name :=
  (hperm.map name).eq_of_pairwise (fun _ _ _ _ => String.le_antisymm) hordered hordered'

end Topic

namespace Log

/-- The types that something is registered for. -/
def topics (log : Log) : List Topic := (log.subscriptions.map Subscription.topic).dedup

/-- Their names in order. A name occurs once for each type that has it. -/
def topicNames (log : Log) : List String :=
  (log.topics.mergeSort fun a b => decide (a.name ≤ b.name)).map Topic.name

variable {log log' : Log} {topic : Topic} {listing : List Topic}

theorem mem_topics : topic ∈ log.topics ↔ ∃ s ∈ log.subscriptions, s.topic = topic := by
  rw [topics, List.mem_dedup, List.mem_map]

theorem nodup_topics (log : Log) : log.topics.Nodup := List.nodup_dedup _

theorem eq_topicNames (hperm : listing.Perm log.topics)
    (hordered : (listing.map Topic.name).Pairwise (· ≤ ·)) : listing.map Topic.name = log.topicNames :=
  Topic.names_eq_of_perm (hperm.trans (List.mergeSort_perm _ _).symm) hordered
    (Topic.ordered_mergeSort _)

/-- The names depend on the types alone, not on who registered for them or when. -/
theorem topicNames_congr (h : ∀ topic, topic ∈ log.topics ↔ topic ∈ log'.topics) :
    log.topicNames = log'.topicNames := by
  have hperm : log.topics.Perm log'.topics :=
    (List.perm_ext_iff_of_nodup log.nodup_topics log'.nodup_topics).mpr h
  exact eq_topicNames ((List.mergeSort_perm _ _).trans hperm) (Topic.ordered_mergeSort _)

/-- Each type that something is registered for is listed once, in the order of names. -/
structure IsListed (log : Log) (listing : List Topic) : Prop where
  once : listing.Nodup
  mem_iff : ∀ topic, topic ∈ listing ↔ ∃ s ∈ log.subscriptions, s.topic = topic
  ordered : (listing.map Topic.name).Pairwise (· ≤ ·)
  names_eq : listing.map Topic.name = log.topicNames

end Log

namespace Roster

/-- The index enumerates its types in some order, each once, and a sort by name turns this into a
listing. It may put types of the same name in either order. -/
structure Lists (r : Roster) (enumerated listing : List Topic) : Prop where
  enumeration : enumerated.Perm r.byTopic.keys
  sorting : listing.Perm enumerated
  ordered : (listing.map Topic.name).Pairwise (· ≤ ·)

/-- Whatever two rosters list, the names are the same. -/
def ListsSameNames (r r' : Roster) : Prop :=
  ∀ enumerated listing enumerated' listing', r.Lists enumerated listing →
    r'.Lists enumerated' listing' → listing.map Topic.name = listing'.map Topic.name

theorem lists_topics (r : Roster) : r.Lists r.byTopic.keys r.topics :=
  ⟨.refl _, List.mergeSort_perm _ _, Topic.ordered_mergeSort _⟩

variable {r : Roster} {log : Log} {enumerated listing : List Topic}

/-- The index has a key for each type that something is registered for, and no other. -/
theorem Represents.keys_perm (h : r.Represents log) : r.byTopic.keys.Perm log.topics := by
  refine (List.perm_ext_iff_of_nodup h.indexes.keys_nodup log.nodup_topics).mpr fun topic => ?_
  rw [h.indexes.mem_keys_iff, Log.mem_topics]

theorem Represents.isListed (h : r.Represents log) (hlists : r.Lists enumerated listing) :
    log.IsListed listing := by
  have hkeys : listing.Perm r.byTopic.keys := hlists.sorting.trans hlists.enumeration
  refine ⟨hkeys.nodup_iff.mpr h.indexes.keys_nodup, fun topic => ?_, hlists.ordered, ?_⟩
  · rw [hkeys.mem_iff, h.indexes.mem_keys_iff]
  · exact Log.eq_topicNames (hkeys.trans h.keys_perm) hlists.ordered

end Roster

/-- What a bus can list, given what is registered on it. -/
structure World.ListsTypes (w : World μ) (b : BusId) (log : Log) : Prop where
  between : w.IsBetween b log
  possible : (w.bus b).roster.Lists (w.bus b).roster.byTopic.keys (w.bus b).roster.topics
  listed : ∀ enumerated listing, (w.bus b).roster.Lists enumerated listing →
    log.IsListed listing ∧ ∀ topic, topic ∈ listing ↔ (w.bus b).roster.on topic ≠ []

theorem World.IsBetween.listsTypes {w : World μ} {b : BusId} {log : Log} (h : w.IsBetween b log) :
    w.ListsTypes b log := by
  refine ⟨h, Roster.lists_topics _, fun enumerated listing hlists => ?_⟩
  have hlisted := h.represents.isListed hlists
  refine ⟨hlisted, fun topic => ?_⟩
  rw [hlisted.mem_iff, h.represents.on_eq, ne_eq, List.filter_eq_nil_iff]
  simp

section Runs

variable {β : Behaviour μ} {depth : Nat} {memory : μ} {body : Body μ α} {trace : Trace μ}
  {m : Machine μ α}

theorem Run.listsTypes (h : Run β depth memory body trace m) {b : BusId}
    (hb : b < m.world.buses.length) : m.world.ListsTypes b (trace.registrations b) :=
  (Rounds.isBetween h.rounds hb).listsTypes

/-- At every moment, and whenever a thread looks at a bus, the bus lists the types that something is
registered for, each once and by name, in whatever order its index enumerates them. Two buses, also of
different runs, list the same names if the declarations registered on them are for the same types, in
whatever order this has come about. -/
theorem type_listings_are_canonical (h : Run β depth memory body trace m) :
    (∀ b, b < m.world.buses.length → m.world.ListsTypes b (trace.registrations b) ∧
      ∀ n t, (β.perform (n + 1) t (.readBus b)).alone m.world =
        some ((m.world.bus b).view, m.world)) ∧
    (∀ (later before : Trace μ) t b bus, trace = later ++ (t, .step (.readBus b) bus) :: before →
      ∃ m₀ : Machine μ α, Run β depth memory body before m₀ ∧ m₀.world.bus b = bus ∧
        m₀.world.ListsTypes b (before.registrations b)) ∧
    ∀ {μ' α' : Type} {β' : Behaviour μ'} {depth' : Nat} {memory' : μ'} {body' : Body μ' α'}
      {trace' : Trace μ'} {m' : Machine μ' α'}, Run β' depth' memory' body' trace' m' →
      ∀ b b', b < m.world.buses.length → b' < m'.world.buses.length →
        (∀ topic, topic ∈ (trace.registrations b).topics ↔ topic ∈ (trace'.registrations b').topics) →
          (m.world.bus b).roster.ListsSameNames (m'.world.bus b').roster := by
  refine ⟨fun b hb => ⟨h.listsTypes hb, fun n t => ?_⟩, fun later before t b bus htrace => ?_, ?_⟩
  · have hread : Proc.Leads ((Proc.readBus b).bind fun bus => .done bus.view) m.world
        (m.world.bus b).view m.world := (leads_readBus hb).bind (.done _ _)
    exact hread.alone
  · obtain ⟨m₀, hrun, hb, hbus⟩ := h.exists_moment_of_read htrace
    exact ⟨m₀, hrun, hbus, hrun.listsTypes hb⟩
  · intro _ _ _ _ _ _ trace' _ h' b b' hb hb' hsame enumerated listing enumerated' listing' hlists hlists'
    have hlisted := ((h.listsTypes hb).listed _ _ hlists).1
    have hlisted' := ((h'.listsTypes hb').listed _ _ hlists').1
    calc listing.map Topic.name
        _ = (trace.registrations b).topicNames := hlisted.names_eq
        _ = (trace'.registrations b').topicNames := Log.topicNames_congr hsame
        _ = listing'.map Topic.name := hlisted'.names_eq.symm

end Runs

/-- Two types share a name. In the second run the objects register in another order, one of them leaves
and comes back, and a third comes and goes. The index has its keys in another order then, and the two
types of one name can change places in the listing, but not their name. -/
theorem type_listings_are_canonical_among_twins :
    let twin : Topic := .event ⟨"P", "app::Twin", 0⟩
    let other : Topic := .event ⟨"Q", "app::Twin", 0⟩
    let alone : Topic := .interface "X" "app::Alone"
    let crew : Subscriber := ⟨⟨"Crew", 0⟩, "crew",
      [⟨"hear", true, .one twin, ⟨0⟩⟩, ⟨"see", true, .one other, ⟨1⟩⟩]⟩
    let relief : Subscriber := ⟨⟨"Relief", 1⟩, "relief",
      [⟨"wait", false, .one alone, ⟨2⟩⟩, ⟨"hear", true, .one twin, ⟨3⟩⟩]⟩
    let guest : Subscriber := ⟨⟨"Guest", 2⟩, "guest", [⟨"all", true, .one .root, ⟨4⟩⟩]⟩
    let β : Behaviour Unit := {
      handle _ _ := .done .fine
      observe _ _ := .done none
      work _ := .done none }
    let plain : Body Unit Unit := .step (.openBus .standard .publisher) fun b =>
      .step (.register b crew) fun _ => .step (.register b relief) fun _ => .done ()
    let eventful : Body Unit Unit := .step (.openBus .standard .publisher) fun b =>
      .step (.register b relief) fun _ => .step (.register b crew) fun _ =>
        .step (.register b guest) fun _ => .step (.unregister b crew.owner "crew") fun _ =>
          .step (.register b crew) fun _ => .step (.unregister b guest.owner "guest") fun _ => .done ()
    ∃ trace m trace' m', Run β 1 () plain trace m ∧ Run β 1 () eventful trace' m' ∧
      (m.world.bus 0).roster.byTopic.keys = [twin, other, alone] ∧
      (m'.world.bus 0).roster.byTopic.keys = [alone, twin, other] ∧
      (m.world.bus 0).roster.Lists [other, alone, twin] [alone, other, twin] ∧
      (m'.world.bus 0).roster.Lists [twin, alone, other] [alone, twin, other] ∧
      m.world.ListsTypes 0 (trace.registrations 0) ∧ m'.world.ListsTypes 0 (trace'.registrations 0) ∧
      (m.world.bus 0).roster.ListsSameNames (m'.world.bus 0).roster := by
  intro twin other alone crew relief guest β plain eventful
  have hplain : ((Machine.start β 1 () plain).play β 1 (List.replicate 9 (.caller 0))).any
      (fun (trace, m) => 0 < m.world.buses.length ∧
        (trace.registrations 0).topics = [other, alone, twin] ∧
        (m.world.bus 0).roster.byTopic.keys = [twin, other, alone]) = true := by
    decide +kernel
  have heventful : ((Machine.start β 1 () eventful).play β 1 (List.replicate 25 (.caller 0))).any
      (fun (trace, m) => 0 < m.world.buses.length ∧
        (trace.registrations 0).topics = [alone, twin, other] ∧
        (m.world.bus 0).roster.byTopic.keys = [alone, twin, other]) = true := by
    decide +kernel
  obtain ⟨trace, m, hrun, hseen⟩ := Run.exists_of_play hplain
  obtain ⟨hopen, htopics, hkeys⟩ := of_decide_eq_true hseen
  obtain ⟨trace', m', hrun', hseen'⟩ := Run.exists_of_play heventful
  obtain ⟨hopen', htopics', hkeys'⟩ := of_decide_eq_true hseen'
  have hsame : ∀ topic,
      topic ∈ (trace.registrations 0).topics ↔ topic ∈ (trace'.registrations 0).topics := by
    have hperm : [other, alone, twin].Perm [alone, twin, other] := by decide
    rw [htopics, htopics']
    exact fun topic => hperm.mem_iff
  obtain ⟨hmoments, -, hnames⟩ := type_listings_are_canonical hrun
  obtain ⟨hmoments', -, -⟩ := type_listings_are_canonical hrun'
  refine ⟨trace, m, trace', m', hrun, hrun', hkeys, hkeys', ⟨?_, by decide, by decide⟩,
    ⟨?_, by decide, by decide⟩, (hmoments 0 hopen).1, (hmoments' 0 hopen').1,
    hnames hrun' 0 0 hopen hopen' hsame⟩
  · rw [hkeys]
    decide
  · rw [hkeys']
    decide

end PubSub
