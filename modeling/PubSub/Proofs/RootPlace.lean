import PubSub.Proofs.FirstUse

/-!
# Where the root stands

Every table has the root once. A declaration that leaves the root out gets it at the end, and handlers
for it get the event itself. But a declaration may name the root, and the first entry for a type is the
one that counts: then the root stands where it is named first, and its handlers come before those for
types that are named later, with whatever object that declaration gives to them.
-/
namespace PubSub

variable {μ α : Type}

namespace Declarations

/-- The root is declared for a type, by the type itself or by a parent that it inherits. -/
inductive DeclaresRoot (d : Declarations) : EventType → Prop where
  | here {type : EventType} {cast : Cast .root} (step : .to .root cast ∈ d.of type) : DeclaresRoot d type
  | inherited {type parent : EventType} {lower : parent.rank < type.rank} {embedding : Embedding parent}
      (step : .inherit parent lower embedding ∈ d.of type) (declares : DeclaresRoot d parent) :
      DeclaresRoot d type

theorem root_mem_expansion (d : Declarations) (type : EventType) :
    .root ∈ (d.expansion type).map Prod.fst ↔ d.DeclaresRoot type := by
  have hparent : ∀ (parent : EventType), parent.rank < type.rank → ∀ embedding : Embedding parent,
      .root ∈ ((d.expansion parent).map fun entry =>
        (entry.1, entry.2 ∘ embedding.apply)).map Prod.fst ↔ d.DeclaresRoot parent := by
    intro parent lower embedding
    rw [List.map_map]
    exact d.root_mem_expansion parent
  rw [expansion, List.map_cons, List.mem_cons, List.map_flatMap, List.mem_flatMap]
  constructor
  · rintro (himpossible | ⟨step, hstep, hroot⟩)
    · cases himpossible
    · cases step with
      | «to» target cast =>
        obtain rfl : .root = target := List.mem_singleton.mp hroot
        exact .here hstep
      | inherit parent lower embedding =>
        exact .inherited hstep ((hparent parent lower embedding).mp hroot)
  · intro hdeclares
    cases hdeclares with
    | here step => exact .inr ⟨_, step, List.mem_singleton_self _⟩
    | @inherited _ parent lower embedding step declares =>
      exact .inr ⟨_, step, (hparent parent lower embedding).mpr declares⟩
termination_by type.rank

end Declarations

/-- The first entry for a key keeps its place, and later entries for keys that have occurred go. -/
theorem firstOccurrences_append_cons {κ ν : Type} [DecidableEq κ] {before : List (κ × ν)} {k : κ} (v : ν)
    (h : k ∉ before.map Prod.fst) (after : List (κ × ν)) :
    firstOccurrences (before ++ (k, v) :: after) = firstOccurrences before ++
      (k, v) :: (firstOccurrences after).filter (·.1 ∉ k :: before.map Prod.fst) := by
  rw [firstOccurrences_append, firstOccurrences, List.filter_cons_of_pos (by simpa using h),
    List.filter_filter]
  congr 2
  refine List.filter_congr fun other _ => ?_
  simp only [List.mem_cons, not_or, Bool.decide_and, Bool.and_comm]

namespace Table.Realizes

variable {type : EventType} {table : Table}

theorem topics_eq {expansion : Expansion} (h : table.Realizes type expansion) :
    table.topics = expansion.map Prod.fst := by
  induction h with
  | nil => rfl
  | cons hentry _ ih => exact congrArg₂ List.cons hentry.1 ih

theorem exists_append {before after : Expansion} (h : table.Realizes type (before ++ after)) :
    ∃ first rest, table = first ++ rest ∧ Realizes type first before ∧ Realizes type rest after :=
  ⟨_, _, (List.take_append_drop before.length table).symm, List.forall₂_take_append table before after h,
    List.forall₂_drop_append table before after h⟩

end Table.Realizes

/-- The expansion of a type with the root at its end. -/
def Declarations.rooted (d : Declarations) (type : EventType) : Expansion :=
  d.expansion type ++ [(.root, .event)]

/-- The first entry for the root in an expansion, to which the root has been added at the end, gives the
root its object. In the table of the type it has the same place. -/
structure RootAt (d : Declarations) (type : EventType) (object : Event → Object) (first : Table)
    (route : Route) (rest : Table) : Prop where
  occurrence : ∃ before after, d.rooted type = before ++ (.root, object) :: after ∧
    (∀ topic, topic ∈ first.topics ↔ topic ∈ before.map Prod.fst) ∧
    ∀ topic, topic ∈ rest.topics ↔
      topic ∈ after.map Prod.fst ∧ topic ≠ .root ∧ topic ∉ before.map Prod.fst
  table : d.table type = first ++ (.root, route) :: rest
  carries : route.Carries type .root object
  once : .root ∉ first.topics ∧ .root ∉ rest.topics
  /-- Without a declaration of the root it comes last, and its handlers get the event itself. -/
  undeclared : ¬d.DeclaresRoot type → rest = [] ∧ object = .event

namespace Declarations

theorem exists_first_root (d : Declarations) (type : EventType) : ∃ before object after,
    d.rooted type = before ++ (.root, object) :: after ∧ .root ∉ before.map Prod.fst := by
  have hfind : ((d.rooted type).find? (·.1 = .root)).isSome = true := by
    simp [rooted]
  obtain ⟨⟨topic, object⟩, hfound⟩ := Option.isSome_iff_exists.mp hfind
  obtain ⟨hroot, before, after, hsplit, hbefore⟩ := List.find?_eq_some_iff_append.mp hfound
  obtain rfl : topic = .root := of_decide_eq_true hroot
  refine ⟨before, object, after, hsplit, fun hmem => ?_⟩
  obtain ⟨entry, hentry, heq⟩ := List.mem_map.mp hmem
  have hne := hbefore entry hentry
  simp [heq] at hne

/-- If the root is not declared, its first entry is the one at the end. -/
theorem eq_of_not_declaresRoot {d : Declarations} {type : EventType} (h : ¬d.DeclaresRoot type)
    {before after : Expansion} {object : Event → Object}
    (hsplit : d.rooted type = before ++ (.root, object) :: after) : after = [] ∧ object = .event := by
  rw [← root_mem_expansion] at h
  rcases List.append_eq_append_iff.mp hsplit with ⟨more, -, hroot⟩ | ⟨more, hexpansion, hroot⟩
  · cases more with
    | nil =>
      obtain ⟨hentry, rfl⟩ := List.cons.inj hroot
      exact ⟨rfl, (Prod.mk.inj hentry).2.symm⟩
    | cons entry more =>
      have hlength := congrArg List.length hroot
      simp at hlength
  · cases more with
    | nil =>
      obtain ⟨hentry, rfl⟩ := List.cons.inj hroot
      exact ⟨rfl, (Prod.mk.inj hentry).2⟩
    | cons entry more =>
      obtain ⟨rfl, -⟩ := List.cons.inj hroot
      exact absurd (hexpansion ▸ List.mem_map_of_mem (List.mem_append_right _ List.mem_cons_self)) h

theorem exists_rootAt (d : Declarations) (type : EventType) :
    ∃ object first route rest, RootAt d type object first route rest := by
  obtain ⟨before, object, after, hsplit, hnew⟩ := d.exists_first_root type
  have hrealizes : (d.table type).Realizes type (firstOccurrences (d.rooted type)) :=
    d.table_realizes type
  rw [hsplit, firstOccurrences_append_cons object hnew] at hrealizes
  obtain ⟨first, tail, htable, hfirst, htail⟩ := hrealizes.exists_append
  obtain ⟨⟨_, route⟩, rest, ⟨rfl, hcarries⟩, hrest, rfl⟩ := List.forall₂_cons_right_iff.mp htail
  have hmem : ∀ topic, topic ∈ Table.topics rest ↔
      topic ∈ after.map Prod.fst ∧ topic ≠ .root ∧ topic ∉ before.map Prod.fst := by
    intro topic
    rw [Table.Realizes.topics_eq hrest, ← mem_firstOccurrences_keys after, ← not_or, ← List.mem_cons]
    simp only [List.mem_map, List.mem_filter, decide_eq_true_iff]
    constructor
    · rintro ⟨entry, ⟨hentry, hother⟩, rfl⟩
      exact ⟨⟨entry, hentry, rfl⟩, by simpa using hother⟩
    · rintro ⟨⟨entry, hentry, rfl⟩, hother⟩
      exact ⟨entry, ⟨hentry, by simpa using hother⟩, rfl⟩
  have hfirstTopics : ∀ topic, topic ∈ first.topics ↔ topic ∈ before.map Prod.fst := by
    intro topic
    rw [hfirst.topics_eq, mem_firstOccurrences_keys]
  refine ⟨object, first, route, rest, ⟨before, after, hsplit, hfirstTopics, hmem⟩, htable, hcarries,
    ⟨fun h => hnew ((hfirstTopics _).mp h), fun h => ((hmem _).mp h).2.1 rfl⟩, fun hnot => ?_⟩
  obtain ⟨rfl, hobject⟩ := eq_of_not_declaresRoot hnot hsplit
  refine ⟨List.eq_nil_iff_forall_not_mem.mpr fun entry hentry => ?_, hobject⟩
  cases ((hmem _).mp (List.mem_map_of_mem hentry)).1

end Declarations

/-- With this table handlers for the root come after those for the types of its first part and before
the others, and get the root's object. -/
structure TreatsRoot (trace : Trace μ) (m : Machine μ α) (b : BusId) (type : EventType)
    (object : Event → Object) (first rest : Table) : Prop where
  order : ∀ id matched, .selected id matched ∈ m.world.story id →
    (∀ i ∈ matched, i.bus = b ∧ i.event.type = type) → ∃ ahead roots behind,
      matched = ahead ++ (roots ++ behind) ∧
      (∀ i ∈ ahead, i.subscription.topic ∈ first.topics) ∧ (∀ i ∈ roots, i.subscription.topic = .root) ∧
      (∀ i ∈ behind, i.subscription.topic ∈ rest.topics) ∧
      (m.world.story id).filterMap m.world.visit? <+: matched
  objects : ∀ t name i x, (t, .step (.record name (.called i x)) ()) ∈ trace → i.bus = b →
    i.event.type = type → i.subscription.topic = .root → x = object i.event

/-- The handlers that a table finds come in the order of its types. -/
theorem Roster.Represents.exists_parts {r : Roster} {log : Log} (h : r.Represents log)
    {first rest : Table} {route : Route} {matched : List Invocation}
    (hmatched : matched.map Invocation.subscription =
      (Table.topics (first ++ (.root, route) :: rest)).flatMap r.on) : ∃ ahead roots behind,
    matched = ahead ++ (roots ++ behind) ∧ (∀ i ∈ ahead, i.subscription.topic ∈ first.topics) ∧
      (∀ i ∈ roots, i.subscription.topic = .root) ∧ ∀ i ∈ behind, i.subscription.topic ∈ rest.topics := by
  have htopic : ∀ {part : List Invocation} {topics : List Topic},
      part.map Invocation.subscription = topics.flatMap r.on →
        ∀ i ∈ part, i.subscription.topic ∈ topics := by
    intro part topics hpart i hi
    obtain ⟨topic, htopic, hon⟩ := List.mem_flatMap.mp (hpart ▸ List.mem_map_of_mem hi)
    exact (h.mem_on_iff.mp hon).2 ▸ htopic
  rw [Table.topics, List.map_append, List.map_cons, List.flatMap_append, List.flatMap_cons] at hmatched
  obtain ⟨ahead, others, rfl, hahead, hothers⟩ := List.map_eq_append_iff.mp hmatched
  obtain ⟨roots, behind, rfl, hroots, hbehind⟩ := List.map_eq_append_iff.mp hothers
  refine ⟨ahead, roots, behind, rfl, htopic hahead, fun i hi => ?_, htopic hbehind⟩
  exact (h.mem_on_iff.mp (hroots ▸ List.mem_map_of_mem hi)).2

section Runs

variable {β : Behaviour μ} {depth : Nat} {memory : μ} {body : Body μ α} {trace : Trace μ}
  {m : Machine μ α} {b : BusId} {type : EventType} {table : Table}

/-- A bus treats the root as the table says that it goes by. -/
theorem Run.treatsRoot (h : Run β depth memory body trace m)
    (hkept : (m.world.bus b).tables.get? type = some table) {d : Declarations}
    (htable : table = d.table type) {object : Event → Object} {first rest : Table} {route : Route}
    (hroot : RootAt d type object first route rest) : TreatsRoot trace m b type object first rest where
  order id matched hselected htarget := by
    obtain ⟨_, _, m₀, _, b', -, hrun, hopen, -, -, event, table', hkept', hmatched⟩ :=
      h.exists_view hselected
    have hpursues := (h.pursues hselected).in_order
    rcases List.eq_nil_or_concat matched with rfl | ⟨_, i, hlast⟩
    · exact ⟨[], [], [], rfl, List.forall_mem_nil _, List.forall_mem_nil _, List.forall_mem_nil _,
        hpursues⟩
    · have hi : i ∈ matched := by simp [hlast]
      obtain ⟨hbus, htype⟩ := htarget i hi
      obtain ⟨-, hbus', hevent⟩ := Activities.bus_deliveries i (hmatched ▸ hi)
      obtain rfl : b' = b := hbus'.symm.trans hbus
      rw [← hevent, htype, hkept] at hkept'
      obtain rfl := Option.some.inj hkept'
      have hrepresents := (Rounds.isBetween hrun.rounds hopen).represents
      have hsubscriptions : matched.map Invocation.subscription =
          (Table.topics (first ++ (.root, route) :: rest)).flatMap (m₀.world.bus b').roster.on := by
        rw [hmatched, subscription_deliveries, Roster.map_select, htable, hroot.table]
      obtain ⟨ahead, roots, behind, hparts, hahead, hroots, hbehind⟩ :=
        hrepresents.exists_parts hsubscriptions
      exact ⟨ahead, roots, behind, hparts, hahead, hroots, hbehind, hpursues⟩
  objects t name i x hcalled hbus htype htopic := by
    subst hbus htype
    obtain ⟨-, table', route', hkept', hmem, hfollow⟩ := h.called hcalled
    obtain rfl := Option.some.inj (hkept'.symm.trans hkept)
    have hnodup := ((Activities.isSound_of_lawful h.activities.1 i.bus).tables _ _ hkept').1
    have hentry : (Topic.root, route) ∈ table' := by
      rw [htable, hroot.table]
      exact List.mem_append_right first List.mem_cons_self
    rw [htopic] at hmem hfollow
    obtain rfl := (Prod.mk.inj (List.inj_on_of_nodup_map hnodup hmem hentry rfl)).2
    rw [hroot.carries, if_pos ⟨rfl, rfl⟩] at hfollow
    exact (Option.some.inj hfollow).symm

/-- The root stands in a table once, where the declarations in force when it was computed name it first,
or last if they do not. Its handlers come there, and get what that declaration makes of the event, or
the event itself. -/
theorem root_stands_where_first_named (h : Run β depth memory body trace m)
    (hkept : (m.world.bus b).tables.get? type = some table) :
    ∃ (later before : Trace μ) (t : Turn) (name : Thread) (object : Event → Object) (first : Table)
        (route : Route) (rest : Table),
      trace = later ++ (t, .step (.computeTable name b type) table) :: before ∧
      table = before.declarations.table type ∧
      RootAt before.declarations type object first route rest ∧
      TreatsRoot trace m b type object first rest := by
  obtain ⟨later, between, before, t, name, htrace, -, -, htable⟩ :=
    Latest.settles (Latest.lawful h) hkept
  obtain ⟨object, first, route, rest, hroot⟩ := before.declarations.exists_rootAt type
  rw [← List.cons_append, ← List.append_assoc] at htrace
  exact ⟨_, before, t, name, object, first, route, rest, htrace, htable, hroot,
    h.treatsRoot hkept htable hroot⟩

end Runs

/-- A parent names the root, so a type that is declared after the parent comes behind the root. -/
theorem root_stands_where_first_named_by_parent :
    let base : EventType := ⟨"Base", "app::Base", 0⟩
    let tick : EventType := ⟨"Tick", "app::Tick", 1⟩
    let wide : Topic := .interface "Wide" "app::Wide"
    let β : Behaviour Unit := {
      handle _ _ := .done .fine
      observe _ _ := .done none
      work _ := .done none }
    let body : Body Unit (List Topic) :=
      .step (.declare base [.to .root (.through none .root)]) fun _ =>
        .step (.declare tick [.inherit base (by decide) (.through none base),
          .to wide (.through none wide)])
          fun _ => .step (.openBus .standard .publisher) fun b =>
            .step (.assignable b tick) fun topics => .done topics
    ∃ trace m table, Run β 1 () body trace m ∧ (m.world.bus 0).tables.get? tick = some table ∧
      table.topics = [.event tick, .event base, .root, wide] ∧
      ∃ (later before : Trace Unit) (t : Turn) (name : Thread) (object : Event → Object) (first : Table)
          (route : Route) (rest : Table),
        trace = later ++ (t, .step (.computeTable name 0 tick) table) :: before ∧
        table = before.declarations.table tick ∧ RootAt before.declarations tick object first route rest ∧
        TreatsRoot trace m 0 tick object first rest := by
  intro base tick wide β body
  have hseen : ((Machine.start β 1 () body).play β 1 (List.replicate 6 (.caller 0))).any (fun (_, m) =>
      ((m.world.bus 0).tables.get? tick).map Table.topics =
        some [.event tick, .event base, .root, wide]) = true := by
    decide +kernel
  obtain ⟨trace, m, hrun, hfacts⟩ := Run.exists_of_play hseen
  obtain ⟨table, hkept, htopics⟩ := Option.map_eq_some_iff.mp (of_decide_eq_true hfacts)
  exact ⟨trace, m, table, hrun, hkept, htopics, root_stands_where_first_named hrun hkept⟩

/-- Here the root is named before another type, by way of an event inside. So it is not the last type of
the table, its handler runs before the other one, and gets the event inside instead of the one posted. -/
theorem named_root_comes_early_with_a_part :
    let inner : EventType := ⟨"Inner", "app::Inner", 0⟩
    let tick : EventType := ⟨"Tick", "app::Tick", 1⟩
    let wide : Topic := .interface "Wide" "app::Wide"
    let event : Event := ⟨tick, 7, "k"⟩
    let crew : Subscriber := ⟨⟨"Crew", 0⟩, "crew",
      [⟨"wide", false, .one wide, ⟨0⟩⟩, ⟨"all", false, .one .root, ⟨0⟩⟩]⟩
    let β : Behaviour Unit := {
      handle _ _ := .done .fine
      observe _ _ := .done none
      work _ := .done none }
    let body : Body Unit (List Topic) :=
      .step (.declare tick [.to .root (.through (some inner) .root), .to wide (.through none wide)])
        fun _ => .step (.openBus .standard .publisher) fun b => .step (.register b crew) fun _ =>
          .step (.assignable b tick) fun topics => .step (.post b event) fun _ => .done topics
    ∃ trace m, Run β 2 () body trace m ∧ m.results = [some [.event tick, .root, wide]] ∧
      m.world.callbacks.filterMap (fun o => match o with
        | .called i object => some (i.subscription.method, object)
        | _ => none) = [("all", .event (event.part inner)), ("wide", .event event)] := by
  intro inner tick wide event crew β body
  have hseen : ((Machine.start β 2 () body).play β 2 (List.replicate 31 (.caller 0))).any (fun (_, m) =>
      m.results = [some [.event tick, .root, wide]] ∧
      m.world.callbacks.filterMap (fun o => match o with
        | .called i object => some (i.subscription.method, object)
        | _ => none) = [("all", .event (event.part inner)), ("wide", .event event)]) = true := by
    decide +kernel
  obtain ⟨trace, m, hrun, hfacts⟩ := Run.exists_of_play hseen
  exact ⟨trace, m, hrun, of_decide_eq_true hfacts⟩

end PubSub
