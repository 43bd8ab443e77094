import Mathlib.Data.List.Nodup
import PubSub.Roster

/-!
# Rosters as logs

A roster keeps two maps, by type and by owner. Both are views of one list: the owners in the order
in which they registered, each with the subscriptions that it had then. Every registration and
every withdrawal is one change of that list.
-/
namespace PubSub

/-- Owners with their subscriptions as of their registration, in the order of registration. -/
abbrev Log := List (SubscriberId × List Subscription)

namespace Log

def owners (log : Log) : List SubscriberId := log.map Prod.fst

def subscriptions (log : Log) : List Subscription := log.flatMap Prod.snd

/-- No owner occurs twice, and the subscriptions of an owner are its own and have distinct places. -/
structure Proper (log : Log) : Prop where
  owners_nodup : log.owners.Nodup
  owned : ∀ entry ∈ log, ∀ s ∈ entry.2, s.id.owner = entry.1
  places_nodup : ∀ entry ∈ log, (entry.2.map Subscription.id).Nodup

theorem proper_nil : Proper [] := by
  constructor <;> simp [owners]

theorem Proper.append {log : Log} (h : log.Proper) {owner : SubscriberId}
    {added : List Subscription} (habsent : owner ∉ log.owners)
    (howned : ∀ s ∈ added, s.id.owner = owner) (hnodup : (added.map Subscription.id).Nodup) :
    Proper (log ++ [(owner, added)]) := by
  constructor
  · rw [owners, List.map_append, List.map_singleton, List.nodup_append]
    refine ⟨h.owners_nodup, List.nodup_singleton _, ?_⟩
    intro a ha b hb he
    rw [List.mem_singleton] at hb
    rw [he, hb] at ha
    exact habsent ha
  · intro entry hentry
    rcases List.mem_append.mp hentry with hold | hnew
    · exact h.owned entry hold
    · rw [List.mem_singleton] at hnew
      exact hnew ▸ howned
  · intro entry hentry
    rcases List.mem_append.mp hentry with hold | hnew
    · exact h.places_nodup entry hold
    · rw [List.mem_singleton] at hnew
      exact hnew ▸ hnodup

theorem Proper.filter {log : Log} (h : log.Proper) (keep : SubscriberId × List Subscription → Bool) :
    Proper (log.filter keep) := by
  constructor
  · exact h.owners_nodup.sublist (List.filter_sublist.map Prod.fst)
  · exact fun entry hentry => h.owned entry (List.mem_of_mem_filter hentry)
  · exact fun entry hentry => h.places_nodup entry (List.mem_of_mem_filter hentry)

theorem Proper.owner_mem {log : Log} (h : log.Proper) {s : Subscription}
    (hs : s ∈ log.subscriptions) : s.id.owner ∈ log.owners := by
  obtain ⟨entry, hentry, hmem⟩ := List.mem_flatMap.mp hs
  rw [h.owned entry hentry s hmem]
  exact List.mem_map_of_mem hentry

theorem Proper.ids_nodup {log : Log} (h : log.Proper) :
    (log.subscriptions.map Subscription.id).Nodup := by
  rw [subscriptions, List.map_flatMap, List.nodup_flatMap]
  refine ⟨h.places_nodup, ?_⟩
  have hpair := List.pairwise_map.mp h.owners_nodup
  refine hpair.imp_of_mem ?_
  intro a b ha hb hne id hida hidb
  obtain ⟨s, hs, rfl⟩ := List.mem_map.mp hida
  obtain ⟨s', hs', hid⟩ := List.mem_map.mp hidb
  apply hne
  rw [← h.owned a ha s hs, ← h.owned b hb s' hs', hid]

/-- Without an owner, exactly the owner's subscriptions are missing. -/
theorem Proper.subscriptions_filter {log : Log} (h : log.Proper) (owner : SubscriberId) :
    Log.subscriptions (log.filter (·.1 ≠ owner)) =
      log.subscriptions.filter (·.id.owner ≠ owner) := by
  have howned := h.owned
  clear h
  induction log with
  | nil => rfl
  | cons entry log ih =>
    have hrest := ih fun e he => howned e (List.mem_cons_of_mem entry he)
    have hmine := howned entry List.mem_cons_self
    simp only [subscriptions] at hrest ⊢
    rw [List.flatMap_cons, List.filter_append, ← hrest]
    by_cases ho : entry.1 = owner
    · have hnone : entry.2.filter (fun s => decide (s.id.owner ≠ owner)) = [] := by
        rw [List.filter_eq_nil_iff]
        intro s hs
        simp [hmine s hs, ho]
      rw [List.filter_cons_of_neg (by simpa using ho), hnone, List.nil_append]
    · have hall : entry.2.filter (fun s => decide (s.id.owner ≠ owner)) = entry.2 := by
        rw [List.filter_eq_self]
        intro s hs
        simp [hmine s hs, ho]
      rw [List.filter_cons_of_pos (by simpa using ho), hall, List.flatMap_cons]

end Log

/-- A list that is kept under a key, which is not there for an empty one. -/
def listed {α : Type} : List α → Option (List α)
  | [] => none
  | l => some l

theorem getD_listed {α : Type} (l : List α) : (listed l).getD [] = l := by
  cases l <;> rfl

theorem listed_eq_some_iff {α : Type} {l l' : List α} : listed l = some l' ↔ l = l' ∧ l' ≠ [] := by
  cases l with
  | nil =>
    constructor
    · intro h; cases h
    · rintro ⟨rfl, h⟩; exact absurd rfl h
  | cons x l =>
    constructor
    · intro h; cases h; exact ⟨rfl, List.cons_ne_nil x l⟩
    · rintro ⟨rfl, -⟩; rfl

namespace Roster

/-- An index by type of a list of subscriptions. -/
structure Indexes (index : Keyed Topic (List Subscription)) (all : List Subscription) : Prop where
  keys_nodup : index.keys.Nodup
  get?_eq : ∀ topic, index.get? topic = listed (all.filter (·.topic = topic))

theorem indexes_empty : Indexes .empty [] := ⟨List.nodup_nil, fun _ => rfl⟩

variable {index : Keyed Topic (List Subscription)} {all : List Subscription}

theorem Indexes.addByTopic (h : Indexes index all) (s : Subscription) :
    Indexes (addByTopic index s) (all ++ [s]) := by
  refine ⟨Keyed.nodup_keys_insert h.keys_nodup _ _, ?_⟩
  intro topic
  rw [Roster.addByTopic, Keyed.get?_insert, List.filter_append, h.get?_eq, h.get?_eq, getD_listed]
  by_cases ht : topic = s.topic
  · subst ht
    rw [if_pos rfl, List.filter_cons_of_pos (by simp), List.filter_nil, eq_comm,
      listed_eq_some_iff]
    exact ⟨rfl, by simp⟩
  · rw [if_neg ht, List.filter_cons_of_neg (by simpa using fun he => ht he.symm), List.filter_nil,
      List.append_nil]

theorem Indexes.addAll (h : Indexes index all) (added : List Subscription) :
    Indexes (added.foldl Roster.addByTopic index) (all ++ added) := by
  induction added generalizing index all with
  | nil => simpa using h
  | cons s added ih =>
    rw [List.foldl_cons, List.append_cons]
    exact ih (h.addByTopic s)

theorem get?_dropByTopic (index : Keyed Topic (List Subscription)) (s : Subscription)
    (topic : Topic) :
    (dropByTopic index s).get? topic =
      if topic = s.topic then (index.get? topic).bind fun l => listed (l.filter (·.id ≠ s.id))
      else index.get? topic := by
  rw [dropByTopic]
  split
  · rename_i hnone
    split
    · rename_i ht
      rw [ht, hnone]
      rfl
    · rfl
  · rename_i present hsome
    split
    · rename_i hnil
      rw [Keyed.get?_erase]
      split
      · rename_i ht
        rw [ht, hsome, Option.bind_some, hnil]
        rfl
      · rfl
    · rename_i kept hkept
      rw [Keyed.get?_insert]
      split
      · rename_i ht
        rw [ht, hsome, Option.bind_some, eq_comm, listed_eq_some_iff]
        exact ⟨rfl, hkept⟩
      · rfl

theorem nodup_keys_dropByTopic (h : index.keys.Nodup) (s : Subscription) :
    (dropByTopic index s).keys.Nodup := by
  rw [dropByTopic]
  split
  · exact h
  · split
    · exact Keyed.nodup_keys_erase h _
    · exact Keyed.nodup_keys_insert h _ _

theorem Indexes.dropByTopic (h : Indexes index all) (s : Subscription) :
    Indexes (dropByTopic index s) (all.filter fun x => ¬ (x.topic = s.topic ∧ x.id = s.id)) := by
  refine ⟨nodup_keys_dropByTopic h.keys_nodup s, ?_⟩
  intro topic
  rw [get?_dropByTopic, h.get?_eq, List.filter_filter]
  split
  · rename_i ht
    subst ht
    have hfilter : (all.filter (·.topic = s.topic)).filter (·.id ≠ s.id) =
        all.filter fun x => decide (x.topic = s.topic) &&
          decide ¬ (x.topic = s.topic ∧ x.id = s.id) := by
      rw [List.filter_filter]
      apply List.filter_congr
      intro x _
      by_cases hx : x.topic = s.topic <;> simp [hx]
    rw [← hfilter]
    cases all.filter (·.topic = s.topic) <;> rfl
  · rename_i ht
    congr 1
    apply List.filter_congr
    intro x _
    by_cases hx : x.topic = topic
    · simp [hx, ht]
    · simp [hx]

theorem Indexes.dropAll (h : Indexes index all) (removed : List Subscription) :
    Indexes (removed.foldl Roster.dropByTopic index)
      (all.filter fun x => ∀ s ∈ removed, ¬ (x.topic = s.topic ∧ x.id = s.id)) := by
  induction removed generalizing index all with
  | nil => simpa using h
  | cons s removed ih =>
    rw [List.foldl_cons]
    have hrest := ih (h.dropByTopic s)
    rw [List.filter_filter] at hrest
    simpa only [List.forall_mem_cons, Bool.decide_and, Bool.and_comm] using hrest

/-- Both maps of the roster are views of the log. -/
structure Represents (r : Roster) (log : Log) : Prop where
  proper : log.Proper
  byOwner_eq : r.byOwner.pairs = log
  indexes : Indexes r.byTopic log.subscriptions

theorem represents_empty : Represents .empty [] := ⟨Log.proper_nil, rfl, indexes_empty⟩

variable {r : Roster} {log : Log}

theorem Represents.contains_iff (h : r.Represents log) (owner : SubscriberId) :
    r.contains owner = true ↔ owner ∈ log.owners := by
  rw [Roster.contains, Keyed.contains_iff_mem_keys, Keyed.keys, h.byOwner_eq]
  rfl

theorem Represents.on_eq (h : r.Represents log) (topic : Topic) :
    r.on topic = log.subscriptions.filter (·.topic = topic) := by
  rw [Roster.on, h.indexes.get?_eq, getD_listed]

/-- Enrolment of an absent owner appends it to the log. -/
theorem Represents.enrol (h : r.Represents log) {owner : SubscriberId} {added : List Subscription}
    (habsent : owner ∉ log.owners) (howned : ∀ s ∈ added, s.id.owner = owner)
    (hnodup : (added.map Subscription.id).Nodup) :
    ∃ r', r.enrol owner added = some r' ∧ r'.Represents (log ++ [(owner, added)]) := by
  have hc : r.contains owner = false := by
    rw [Bool.eq_false_iff]
    exact fun hc => habsent ((h.contains_iff owner).mp hc)
  refine ⟨⟨added.foldl Roster.addByTopic r.byTopic, r.byOwner.insert owner added⟩, ?_, ?_⟩
  · rw [Roster.enrol, hc]
    rfl
  refine ⟨h.proper.append habsent howned hnodup, ?_, ?_⟩
  · have hc' : r.byOwner.contains owner = false := hc
    simp only [Keyed.insert, hc', h.byOwner_eq, Bool.false_eq_true, if_false]
  · simp only [Log.subscriptions, List.flatMap_append, List.flatMap_cons, List.flatMap_nil,
      List.append_nil]
    exact h.indexes.addAll added

theorem Represents.enrol_present (h : r.Represents log) {owner : SubscriberId}
    (hpresent : owner ∈ log.owners) (added : List Subscription) : r.enrol owner added = none := by
  rw [Roster.enrol, (h.contains_iff owner).mpr hpresent]
  rfl

theorem Represents.get?_byOwner (h : r.Represents log) {entry : SubscriberId × List Subscription}
    (hmem : entry ∈ log) : r.byOwner.get? entry.1 = some entry.2 := by
  apply Keyed.get?_of_mem_pairs
  · rw [Keyed.keys, h.byOwner_eq]
    exact h.proper.owners_nodup
  · rwa [h.byOwner_eq]

/-- Exactly the subscriptions of the dismissed owner are dropped from the index. -/
theorem Represents.kept_eq (h : r.Represents log) {owner : SubscriberId}
    {held : List Subscription} (hmem : (owner, held) ∈ log) :
    (log.subscriptions.filter fun x => ∀ s ∈ held, ¬ (x.topic = s.topic ∧ x.id = s.id)) =
      Log.subscriptions (log.filter (·.1 ≠ owner)) := by
  rw [h.proper.subscriptions_filter]
  apply List.filter_congr
  intro x hx
  rw [decide_eq_decide]
  constructor
  · intro hnone howner
    obtain ⟨entry, hentry, hxe⟩ := List.mem_flatMap.mp hx
    have hheld : entry = (owner, held) := by
      have hfst : entry.1 = owner := by rw [← h.proper.owned entry hentry x hxe, howner]
      have hget := h.get?_byOwner hentry
      rw [hfst, h.get?_byOwner hmem] at hget
      exact Prod.ext hfst (Option.some.inj hget).symm
    rw [hheld] at hxe
    exact hnone x hxe ⟨rfl, rfl⟩
  · rintro hne s hs ⟨-, hid⟩
    exact hne (by rw [hid]; exact h.proper.owned _ hmem s hs)

/-- Dismissal of an owner deletes its pair. -/
theorem Represents.dismiss (h : r.Represents log) {owner : SubscriberId}
    {held : List Subscription} (hmem : (owner, held) ∈ log) :
    ∃ r', r.dismiss owner = some (held, r') ∧ r'.Represents (log.filter (·.1 ≠ owner)) := by
  refine ⟨⟨held.foldl Roster.dropByTopic r.byTopic, r.byOwner.erase owner⟩, ?_, ?_⟩
  · rw [Roster.dismiss, h.get?_byOwner hmem]
    rfl
  refine ⟨h.proper.filter _, ?_, ?_⟩
  · rw [Keyed.erase, h.byOwner_eq]
  · rw [← h.kept_eq hmem]
    exact h.indexes.dropAll held

theorem Represents.dismiss_absent (h : r.Represents log) {owner : SubscriberId}
    (habsent : owner ∉ log.owners) : r.dismiss owner = none := by
  have hget : r.byOwner.get? owner = none := by
    rw [Keyed.get?_eq_none_iff, Keyed.keys, h.byOwner_eq]
    exact habsent
  rw [Roster.dismiss, hget]
  rfl

/-- The index less the subscriptions with these ids. -/
def without (ids : List HandlerKey) (index : Keyed Topic (List Subscription)) :
    Keyed Topic (List Subscription) :=
  ⟨index.pairs.filterMap fun entry =>
    (listed (entry.2.filter (·.id ∉ ids))).map (entry.1, ·)⟩

theorem without_eq_self {ids : List HandlerKey} (h : Indexes index all)
    (hids : ∀ s ∈ all, s.id ∉ ids) : without ids index = index := by
  have hentry : ∀ entry ∈ index.pairs,
      (listed (entry.2.filter (·.id ∉ ids))).map (entry.1, ·) = some entry := by
    intro entry hentry
    have hget := Keyed.get?_of_mem_pairs h.keys_nodup hentry
    rw [h.get?_eq, listed_eq_some_iff] at hget
    have hfilter : entry.2.filter (·.id ∉ ids) = entry.2 := by
      rw [List.filter_eq_self]
      intro s hs
      rw [← hget.1] at hs
      simpa using hids s (List.mem_of_mem_filter hs)
    rw [hfilter, listed_eq_some_iff.mpr ⟨rfl, hget.2⟩]
    rfl
  rw [without, List.filterMap_congr hentry, List.filterMap_some]

theorem without_addByTopic {ids : List HandlerKey} (hkeys : index.keys.Nodup) {s : Subscription}
    (hs : s.id ∈ ids) : without ids (addByTopic index s) = without ids index := by
  rw [addByTopic, Keyed.insert]
  split
  · simp only [without, List.filterMap_map]
    congr 1
    apply List.filterMap_congr
    intro entry hentry
    by_cases hk : entry.1 = s.topic
    · have hget := Keyed.get?_of_mem_pairs hkeys hentry
      rw [hk] at hget
      simp [hk, hget, hs]
    · simp [hk]
  · rename_i habsent
    have hget : index.get? s.topic = none := by
      rw [Keyed.get?_eq_none_iff, ← Keyed.contains_iff_mem_keys]
      exact habsent
    simp [without, hget, hs, listed]

theorem without_dropByTopic {ids : List HandlerKey} (hkeys : index.keys.Nodup) {s : Subscription}
    (hs : s.id ∈ ids) : without ids (dropByTopic index s) = without ids index := by
  have hkept (l : List Subscription) :
      (l.filter (·.id ≠ s.id)).filter (·.id ∉ ids) = l.filter (·.id ∉ ids) := by
    rw [List.filter_filter]
    apply List.filter_congr
    intro x _
    by_cases hx : x.id = s.id <;> simp [hx, hs]
  rw [dropByTopic]
  split
  · rfl
  rename_i present hsome
  have hentry : ∀ entry ∈ index.pairs, entry.1 = s.topic → entry.2 = present := by
    intro entry hentry hk
    have hget := Keyed.get?_of_mem_pairs hkeys hentry
    rw [hk, hsome] at hget
    exact (Option.some.inj hget).symm
  split
  · rename_i hnil
    simp only [without, Keyed.erase, List.filterMap_filter]
    congr 1
    apply List.filterMap_congr
    intro entry hmem
    by_cases hk : entry.1 = s.topic
    · have hnone : entry.2.filter (·.id ∉ ids) = [] := by
        rw [hentry entry hmem hk, ← hkept, hnil, List.filter_nil]
      simp only [hk, ne_eq, not_true_eq_false, decide_false, Bool.false_eq_true, if_false, hnone,
        listed, Option.map_none]
    · simp [hk]
  · have hc : index.contains s.topic = true := by
      rw [Keyed.contains_eq_isSome, hsome]
      rfl
    simp only [without, Keyed.insert, hc, if_true, List.filterMap_map]
    congr 1
    apply List.filterMap_congr
    intro entry hmem
    by_cases hk : entry.1 = s.topic
    · simp only [Function.comp, hk, if_true, hkept, hentry entry hmem hk]
    · simp [hk]

theorem without_foldl (change : Keyed Topic (List Subscription) → Subscription →
      Keyed Topic (List Subscription))
    (hnodup : ∀ index s, index.keys.Nodup → (change index s).keys.Nodup) {ids : List HandlerKey}
    (hchange : ∀ index s, index.keys.Nodup → s.id ∈ ids →
      without ids (change index s) = without ids index)
    (changes : List Subscription) (hids : ∀ s ∈ changes, s.id ∈ ids) (hkeys : index.keys.Nodup) :
    without ids (changes.foldl change index) = without ids index := by
  induction changes generalizing index with
  | nil => rfl
  | cons s changes ih =>
    rw [List.foldl_cons, ih (fun x hx => hids x (List.mem_cons_of_mem s hx)) (hnodup _ _ hkeys),
      hchange _ _ hkeys (hids s List.mem_cons_self)]

/-- Dismissal of an owner who has just enrolled leads back to the same roster. -/
theorem Represents.dismiss_enrol (h : r.Represents log) {owner : SubscriberId}
    {added : List Subscription} (habsent : owner ∉ log.owners)
    (howned : ∀ s ∈ added, s.id.owner = owner) (hnodup : (added.map Subscription.id).Nodup) :
    (r.enrol owner added).bind (·.dismiss owner) = some (added, r) := by
  obtain ⟨r₁, henrol, h₁⟩ := h.enrol habsent howned hnodup
  obtain ⟨r₂, hdismiss, h₂⟩ := h₁.dismiss (List.mem_append_right log List.mem_cons_self)
  have hlog : (log ++ [(owner, added)]).filter (·.1 ≠ owner) = log := by
    rw [List.filter_append, List.filter_cons_of_neg (by simp), List.filter_nil, List.append_nil,
      List.filter_eq_self]
    intro entry hentry
    have hne : entry.1 ≠ owner := fun he => habsent (he ▸ List.mem_map_of_mem hentry)
    simpa using hne
  rw [hlog] at h₂
  have hindex : r₂.byTopic = r.byTopic := by
    let ids := added.map Subscription.id
    have hids : ∀ s ∈ log.subscriptions, s.id ∉ ids := by
      intro s hs hid
      obtain ⟨x, hx, hxs⟩ := List.mem_map.mp hid
      apply habsent
      rw [← howned x hx, hxs]
      exact h.proper.owner_mem hs
    have hadded : ∀ s ∈ added, s.id ∈ ids := fun s hs => List.mem_map_of_mem hs
    have hr₁ : r₁.byTopic = added.foldl addByTopic r.byTopic := by
      rw [Roster.enrol] at henrol
      split at henrol
      · cases henrol
      · cases henrol; rfl
    have hr₂ : r₂.byTopic = added.foldl dropByTopic r₁.byTopic := by
      rw [Roster.dismiss, h₁.get?_byOwner (List.mem_append_right log List.mem_cons_self)] at hdismiss
      cases hdismiss; rfl
    rw [← without_eq_self h₂.indexes hids, ← without_eq_self h.indexes hids, hr₂,
      without_foldl dropByTopic (fun _ s hk => nodup_keys_dropByTopic hk s)
        (fun _ _ hk => without_dropByTopic hk) added hadded h₁.indexes.keys_nodup, hr₁,
      without_foldl addByTopic (fun _ s hk => Keyed.nodup_keys_insert hk _ _)
        (fun _ _ hk => without_addByTopic hk) added hadded h.indexes.keys_nodup]
  have howner : r₂.byOwner = r.byOwner :=
    congrArg Keyed.mk (h₂.byOwner_eq.trans h.byOwner_eq.symm)
  rw [henrol, Option.bind_some, hdismiss]
  congr 2
  cases r₂; cases r
  simp only at hindex howner
  rw [hindex, howner]

/-- What a roster shows of a log. -/
structure Shows (r : Roster) (log : Log) : Prop where
  owners_nodup : log.owners.Nodup
  on_eq : ∀ topic, r.on topic = log.subscriptions.filter (·.topic = topic)
  get?_ne_nil : ∀ topic, r.byTopic.get? topic ≠ some []
  ids_nodup : (r.byTopic.values.flatten.map Subscription.id).Nodup
  get?_byOwner : ∀ entry ∈ log, r.byOwner.get? entry.1 = some entry.2
  contains_iff : ∀ owner, r.contains owner = true ↔ owner ∈ log.owners
  size_eq : r.size = log.length
  topics_nodup : r.topics.Nodup
  mem_topics_iff : ∀ topic, topic ∈ r.topics ↔ ∃ s ∈ log.subscriptions, s.topic = topic

theorem Indexes.mem_keys_iff (h : Indexes index all) (topic : Topic) :
    topic ∈ index.keys ↔ ∃ s ∈ all, s.topic = topic := by
  rw [← Keyed.contains_iff_mem_keys, Keyed.contains_eq_isSome, h.get?_eq]
  cases hfilter : all.filter (·.topic = topic) with
  | nil =>
    rw [List.filter_eq_nil_iff] at hfilter
    simpa [listed] using hfilter
  | cons s rest =>
    have hs : s ∈ all.filter (·.topic = topic) := hfilter ▸ List.mem_cons_self
    rw [List.mem_filter] at hs
    simp only [listed, Option.isSome_some, true_iff]
    exact ⟨s, hs.1, by simpa using hs.2⟩

theorem Indexes.entry_eq (h : Indexes index all) {entry : Topic × List Subscription}
    (hmem : entry ∈ index.pairs) : entry.2 = all.filter (·.topic = entry.1) := by
  have hget := Keyed.get?_of_mem_pairs h.keys_nodup hmem
  rw [h.get?_eq, listed_eq_some_iff] at hget
  exact hget.1.symm

theorem Indexes.ids_nodup (h : Indexes index all) (hall : (all.map Subscription.id).Nodup) :
    (index.values.flatten.map Subscription.id).Nodup := by
  rw [Keyed.values, ← List.flatMap_def, List.map_flatMap, List.nodup_flatMap]
  constructor
  · intro entry hmem
    rw [h.entry_eq hmem]
    exact hall.sublist (List.filter_sublist.map Subscription.id)
  · refine (List.pairwise_map.mp h.keys_nodup).imp_of_mem ?_
    intro a b ha hb hne id hida hidb
    obtain ⟨s, hs, hsid⟩ := List.mem_map.mp hida
    obtain ⟨s', hs', hsid'⟩ := List.mem_map.mp hidb
    rw [h.entry_eq ha, List.mem_filter] at hs
    rw [h.entry_eq hb, List.mem_filter] at hs'
    -- an id belongs to one subscription, and a subscription to one type
    have hsame : s = s' := List.inj_on_of_nodup_map hall hs.1 hs'.1 (hsid.trans hsid'.symm)
    have htopic := of_decide_eq_true hs.2
    have htopic' := of_decide_eq_true hs'.2
    exact hne (htopic.symm.trans (hsame ▸ htopic'))

theorem Represents.shows (h : r.Represents log) : r.Shows log where
  owners_nodup := h.proper.owners_nodup
  on_eq := h.on_eq
  get?_ne_nil topic hnil := by
    rw [h.indexes.get?_eq, listed_eq_some_iff] at hnil
    exact hnil.2 rfl
  ids_nodup := h.indexes.ids_nodup h.proper.ids_nodup
  get?_byOwner _ hmem := h.get?_byOwner hmem
  contains_iff := h.contains_iff
  size_eq := congrArg List.length h.byOwner_eq
  topics_nodup := (List.mergeSort_perm _ _).nodup_iff.mpr h.indexes.keys_nodup
  mem_topics_iff topic := by
    rw [Roster.topics, List.mem_mergeSort, h.indexes.mem_keys_iff]

end Roster

end PubSub
