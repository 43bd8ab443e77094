import Mathlib.Data.List.Forall2
import Mathlib.Data.List.Nodup
import PubSub.Assignability

/-!
# Assignability tables read off the declaration tree

The expansion of an event type writes out its whole declaration tree, without leaving anything out.
A table is the list of first occurrences in it. Tables are built from the tables of the parents, in
which repetitions are already gone; this changes neither the types, nor their order, nor the
objects that handlers receive.
-/
namespace PubSub

/-- The entries of a list whose key has not occurred before. -/
def firstOccurrences {κ ν : Type} [DecidableEq κ] : List (κ × ν) → List (κ × ν)
  | [] => []
  | entry :: rest => entry :: (firstOccurrences rest).filter (·.1 ≠ entry.1)

section FirstOccurrences

variable {κ ν ν' : Type} [DecidableEq κ]

theorem mem_firstOccurrences_keys (l : List (κ × ν)) (k : κ) :
    k ∈ (firstOccurrences l).map Prod.fst ↔ k ∈ l.map Prod.fst := by
  induction l with
  | nil => rfl
  | cons entry rest ih =>
    by_cases hk : k = entry.1
    · subst hk
      simp [firstOccurrences]
    · simp only [List.mem_map, Prod.exists, exists_and_right, exists_eq_right] at ih
      simp [firstOccurrences, hk, ih]

theorem nodup_firstOccurrences (l : List (κ × ν)) : ((firstOccurrences l).map Prod.fst).Nodup := by
  induction l with
  | nil => exact List.nodup_nil
  | cons entry rest ih =>
    rw [firstOccurrences, List.map_cons, List.nodup_cons]
    refine ⟨?_, ih.sublist (List.filter_sublist.map Prod.fst)⟩
    simp

theorem firstOccurrences_of_nodup {l : List (κ × ν)} (h : (l.map Prod.fst).Nodup) :
    firstOccurrences l = l := by
  induction l with
  | nil => rfl
  | cons entry rest ih =>
    rw [List.map_cons, List.nodup_cons] at h
    rw [firstOccurrences, ih h.2, List.filter_eq_self.mpr]
    intro other hother
    have hne : other.1 ≠ entry.1 := fun he => h.1 (he ▸ List.mem_map_of_mem hother)
    simpa using hne

theorem firstOccurrences_idem (l : List (κ × ν)) :
    firstOccurrences (firstOccurrences l) = firstOccurrences l :=
  firstOccurrences_of_nodup (nodup_firstOccurrences l)

theorem firstOccurrences_append (a b : List (κ × ν)) :
    firstOccurrences (a ++ b) =
      firstOccurrences a ++ (firstOccurrences b).filter (·.1 ∉ a.map Prod.fst) := by
  induction a with
  | nil => simp [firstOccurrences]
  | cons entry rest ih =>
    rw [List.cons_append, firstOccurrences, ih, List.filter_append, List.filter_filter,
      firstOccurrences, List.cons_append]
    congr 2
    apply List.filter_congr
    intro other _
    simp only [List.map_cons, List.mem_cons, not_or, Bool.decide_and]

/-- Repetitions may be dropped from a part before the whole is put together. -/
theorem firstOccurrences_append_congr {a a' b b' : List (κ × ν)}
    (ha : firstOccurrences a = firstOccurrences a') (hb : firstOccurrences b = firstOccurrences b') :
    firstOccurrences (a ++ b) = firstOccurrences (a' ++ b') := by
  have hkeys (k : κ) : k ∈ a.map Prod.fst ↔ k ∈ a'.map Prod.fst := by
    rw [← mem_firstOccurrences_keys, ha, mem_firstOccurrences_keys]
  simp only [firstOccurrences_append, ha, hb, hkeys]

theorem firstOccurrences_append_cons_of_mem {entry : κ × ν} {l : List (κ × ν)}
    (h : entry.1 ∈ l.map Prod.fst) (rest : List (κ × ν)) :
    firstOccurrences (l ++ entry :: rest) = firstOccurrences (l ++ rest) := by
  rw [firstOccurrences_append, firstOccurrences_append, firstOccurrences,
    List.filter_cons_of_neg (by simpa using h), List.filter_filter]
  congr 1
  apply List.filter_congr
  intro other _
  by_cases he : other.1 = entry.1
  · simp only [he, h, not_true_eq_false, decide_false, Bool.false_and]
  · simp only [ne_eq, he, not_false_eq_true, decide_true, Bool.and_true]

theorem firstOccurrences_flatMap_congr {α : Type} (f g : α → List (κ × ν)) (l : List α)
    (h : ∀ x ∈ l, firstOccurrences (f x) = firstOccurrences (g x)) :
    firstOccurrences (l.flatMap f) = firstOccurrences (l.flatMap g) := by
  induction l with
  | nil => rfl
  | cons x l ih =>
    rw [List.flatMap_cons, List.flatMap_cons]
    exact firstOccurrences_append_congr (h x List.mem_cons_self)
      (ih fun y hy => h y (List.mem_cons_of_mem x hy))

/-- A change of the values leaves the first occurrences where they are. -/
theorem firstOccurrences_map (f : κ × ν → κ × ν') (hf : ∀ entry, (f entry).1 = entry.1)
    (l : List (κ × ν)) : firstOccurrences (l.map f) = (firstOccurrences l).map f := by
  induction l with
  | nil => rfl
  | cons entry rest ih =>
    rw [List.map_cons, firstOccurrences, firstOccurrences, List.map_cons, ih, List.filter_map]
    congr 2
    apply List.filter_congr
    intro other _
    simp [hf]

theorem forall₂_firstOccurrences {R : κ × ν → κ × ν' → Prop} (hR : ∀ x y, R x y → x.1 = y.1)
    {l : List (κ × ν)} {l' : List (κ × ν')} (h : List.Forall₂ R l l') :
    List.Forall₂ R (firstOccurrences l) (firstOccurrences l') := by
  induction h with
  | nil => exact .nil
  | cons hxy _ ih =>
    refine .cons hxy (List.rel_filter ?_ ih)
    intro u v huv
    simp [hR _ _ huv, hR _ _ hxy]

end FirstOccurrences

/-- Adding entries one after another keeps the first occurrences. -/
theorem Table.foldl_add (entries table : Table) (h : table.topics.Nodup) :
    entries.foldl (fun table entry => table.add entry.1 entry.2) table =
      firstOccurrences (table ++ entries) := by
  induction entries generalizing table with
  | nil => rw [List.foldl_nil, List.append_nil, firstOccurrences_of_nodup h]
  | cons entry rest ih =>
    rw [List.foldl_cons, Table.add]
    by_cases hmem : entry.1 ∈ table.topics
    · rw [if_pos (by simpa using hmem), ih table h, firstOccurrences_append_cons_of_mem hmem]
    · have hnodup : (table ++ [entry]).topics.Nodup := by
        rw [Table.topics, List.map_append, List.map_singleton, List.nodup_append]
        refine ⟨h, List.nodup_singleton _, ?_⟩
        intro k hk k' hk' he
        rw [List.mem_singleton] at hk'
        exact hmem (hk' ▸ he ▸ hk)
      rw [if_neg (by simpa using hmem), ih _ hnodup, List.append_assoc, List.singleton_append]

/-- The types that an event is assignable to, with the object that a handler of each receives. -/
abbrev Expansion := List (Topic × (Event → Object))

namespace Widening

variable {type : EventType}

/-- What a step contributes to an expansion, given the expansions of parents. -/
def contribution (expansionOf : (parent : EventType) → parent.rank < type.rank → Expansion) :
    Widening type → Expansion
  | .to target cast => [(target, cast.apply)]
  | .inherit parent lower embedding =>
    (expansionOf parent lower).map fun (topic, object) => (topic, object ∘ embedding.apply)

/-- What a step contributes to a table, given the tables of parents. -/
def entries (tableOf : (parent : EventType) → parent.rank < type.rank → Table) :
    Widening type → Table
  | .to target cast => [(target, .cast type target cast)]
  | .inherit parent lower embedding =>
    (tableOf parent lower).map fun (topic, route) => (topic, .enter type parent embedding route)

end Widening

/-- The route takes events of this type to these objects for handlers of this topic, and delivers
nothing else. -/
def Route.Carries (route : Route) (type : EventType) (topic : Topic) (object : Event → Object) :
    Prop :=
  ∀ event wanted, route.follow event wanted =
    if event.type = type ∧ wanted = topic then some (object event) else none

/-- The table has the types of the expansion in the same order, each with a route to its object. -/
def Table.Realizes (type : EventType) : Table → Expansion → Prop :=
  List.Forall₂ fun entry offer => entry.1 = offer.1 ∧ entry.2.Carries type offer.1 offer.2

namespace Declarations

/-- The whole declaration tree of a type: first the type itself, then what its steps contribute, a
parent with its own whole tree. -/
def expansion (d : Declarations) (type : EventType) : Expansion :=
  (.event type, .event) ::
    (d.of type).flatMap (Widening.contribution fun parent _ => d.expansion parent)
termination_by type.rank

/-- The declaration tree without repetitions, which are dropped inside each parent first. -/
def condensed (d : Declarations) (type : EventType) : Expansion :=
  firstOccurrences ((.event type, .event) ::
    (d.of type).flatMap (Widening.contribution fun parent _ => d.condensed parent))
termination_by type.rank

theorem firstOccurrences_contribution {type : EventType} (step : Widening type)
    {f g : (parent : EventType) → parent.rank < type.rank → Expansion}
    (h : ∀ parent lower, firstOccurrences (f parent lower) = firstOccurrences (g parent lower)) :
    firstOccurrences (step.contribution f) = firstOccurrences (step.contribution g) := by
  cases step with
  | «to» target cast => rfl
  | inherit parent lower embedding =>
    simp only [Widening.contribution]
    rw [firstOccurrences_map, h parent lower, firstOccurrences_map]
    · exact fun _ => rfl
    · exact fun _ => rfl

theorem condensed_eq_firstOccurrences (d : Declarations) (type : EventType) :
    d.condensed type = firstOccurrences (d.expansion type) := by
  rw [condensed, expansion]
  refine firstOccurrences_append_congr (a := [_]) rfl ?_
  apply firstOccurrences_flatMap_congr
  intro step _
  apply firstOccurrences_contribution
  intro parent lower
  rw [condensed_eq_firstOccurrences d parent, firstOccurrences_idem]
termination_by type.rank

theorem collectedBelow_eq (d : Declarations) (bound : Nat) (type : EventType)
    (below : type.rank < bound + 1) :
    d.collectedBelow (bound + 1) type below = firstOccurrences (Table.itself type ::
      (d.of type).flatMap (Widening.entries fun parent lower =>
        d.collectedBelow bound parent (Nat.lt_of_lt_of_le lower (Nat.le_of_lt_succ below)))) := by
  rw [collectedBelow, ← List.singleton_append (l := List.flatMap _ _),
    ← Table.foldl_add _ [Table.itself type] (List.nodup_singleton _), List.foldl_flatMap]
  congr 1
  funext table step
  cases step with
  | «to» target cast => rfl
  | inherit parent lower embedding => rw [Widening.entries, List.foldl_map]

theorem itself_carries (type : EventType) :
    (Table.itself type).2.Carries type (.event type) .event := by
  intro event wanted
  rw [Table.itself, Route.follow]
  split
  · rename_i h
    simp only [Cast.through, Event.start, Event.offer, Event.view, h.1, if_true]
  · rfl

theorem rootEntry_carries (type : EventType) :
    (Table.rootEntry type).2.Carries type .root .event := fun _ _ => rfl

theorem enter_carries {type parent : EventType} (embedding : Embedding parent) {route : Route}
    {topic : Topic} {object : Event → Object} (h : route.Carries parent topic object) :
    (Route.enter type parent embedding route).Carries type topic (object ∘ embedding.apply) := by
  intro event wanted
  rw [Route.follow, h]
  by_cases htype : event.type = type <;> simp [htype, embedding.type_apply]

theorem realizes_entries {type : EventType} (step : Widening type)
    {tables : (parent : EventType) → parent.rank < type.rank → Table}
    {expansions : (parent : EventType) → parent.rank < type.rank → Expansion}
    (h : ∀ parent lower, (tables parent lower).Realizes parent (expansions parent lower)) :
    (step.entries tables).Realizes type (step.contribution expansions) := by
  cases step with
  | «to» target cast => exact .cons ⟨rfl, fun _ _ => rfl⟩ .nil
  | inherit parent lower embedding =>
    simp only [Widening.entries, Widening.contribution, Table.Realizes]
    rw [List.forall₂_map_left_iff, List.forall₂_map_right_iff]
    refine (h parent lower).imp ?_
    rintro ⟨topic, route⟩ ⟨topic', object⟩ ⟨rfl, hroute⟩
    exact ⟨rfl, enter_carries embedding hroute⟩

theorem realizes_firstOccurrences {type : EventType} {table : Table} {expansion : Expansion}
    (h : table.Realizes type expansion) :
    Table.Realizes type (firstOccurrences table) (firstOccurrences expansion) :=
  forall₂_firstOccurrences (fun _ _ h => h.1) h

theorem collectedBelow_realizes (d : Declarations) (bound : Nat) (type : EventType)
    (below : type.rank < bound) :
    (d.collectedBelow bound type below).Realizes type (d.condensed type) := by
  induction bound generalizing type with
  | zero => omega
  | succ bound ih =>
    rw [collectedBelow_eq, condensed]
    apply realizes_firstOccurrences
    refine .cons ⟨rfl, itself_carries type⟩ ?_
    refine List.rel_flatMap (List.forall₂_eq_eq_eq.symm ▸ rfl) ?_
    rintro step _ rfl
    exact realizes_entries step fun parent lower => ih parent (by omega)

theorem table_realizes (d : Declarations) (type : EventType) :
    (d.table type).Realizes type (firstOccurrences (d.expansion type ++ [(.root, .event)])) := by
  have hcollected : (d.collected type).Realizes type (d.condensed type) :=
    d.collectedBelow_realizes _ type _
  have hnodup : (d.collected type).topics.Nodup := by
    rw [collected, collectedBelow_eq]
    exact nodup_firstOccurrences _
  have htable : d.table type = firstOccurrences (d.collected type ++ [Table.rootEntry type]) :=
    Table.foldl_add [Table.rootEntry type] (d.collected type) hnodup
  have hcongr : firstOccurrences (d.expansion type ++ [(.root, .event)]) =
      firstOccurrences (d.condensed type ++ [(.root, .event)]) := by
    refine firstOccurrences_append_congr ?_ rfl
    rw [condensed_eq_firstOccurrences, firstOccurrences_idem]
  rw [htable, hcongr]
  apply realizes_firstOccurrences
  exact List.rel_append hcollected (.cons ⟨rfl, rootEntry_carries type⟩ .nil)

/-- A table is the expansion of its type, with the root at its end, less the entries whose type has
occurred before. -/
theorem table_realizes_first_occurrences (d : Declarations) (type : EventType) :
    (d.table type).Realizes type (firstOccurrences (d.expansion type ++ [(.root, .event)])) ∧
      d.condensed type = firstOccurrences (d.expansion type) :=
  ⟨d.table_realizes type, d.condensed_eq_firstOccurrences type⟩

end Declarations

end PubSub
