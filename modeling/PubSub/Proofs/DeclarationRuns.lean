import PubSub.Proofs.Progress

/-!
# Which declarations run

The parents that an event type inherits, and their parents, form a tree. A computation of the type's
table runs the declarations in this tree in post-order, and nothing else runs any. So what a history
shows of declarations can be told from what the threads did.
-/
namespace PubSub

variable {μ α : Type}

/-- An event type with the trees of the parents that it names, one for each time it names one. -/
inductive Heritage where
  | node (type : EventType) (parents : List Heritage)

namespace Heritage

mutual

/-- The types of a tree, parents before those that name them. -/
def postorder : Heritage → List EventType
  | .node type parents => allPostorder parents ++ [type]

def allPostorder : List Heritage → List EventType
  | [] => []
  | tree :: trees => tree.postorder ++ allPostorder trees

end

theorem allPostorder_eq (trees : List Heritage) : allPostorder trees = trees.flatMap postorder := by
  induction trees with
  | nil => rw [allPostorder, List.flatMap_nil]
  | cons tree trees ih => rw [allPostorder, ih, List.flatMap_cons]

mutual

/-- How often a type occurs in a tree. -/
def occurrences (wanted : EventType) : Heritage → Nat
  | .node type parents => allOccurrences wanted parents + if type = wanted then 1 else 0

def allOccurrences (wanted : EventType) : List Heritage → Nat
  | [] => 0
  | tree :: trees => tree.occurrences wanted + allOccurrences wanted trees

end

mutual

/-- In post-order each occurrence is visited once. -/
theorem count_postorder (wanted : EventType) (tree : Heritage) :
    tree.postorder.count wanted = tree.occurrences wanted := by
  cases tree with
  | node type parents =>
    rw [postorder, occurrences, List.count_append, count_allPostorder wanted parents,
      List.count_singleton]
    simp only [beq_iff_eq]

theorem count_allPostorder (wanted : EventType) (trees : List Heritage) :
    (allPostorder trees).count wanted = allOccurrences wanted trees := by
  cases trees with
  | nil => rfl
  | cons tree trees =>
    rw [allPostorder, allOccurrences, List.count_append, count_postorder wanted tree,
      count_allPostorder wanted trees]

end

end Heritage

namespace Declarations

/-- The tree of parents that these declarations give to a type. -/
def heritage (d : Declarations) (type : EventType) : Heritage :=
  .node type ((d.of type).filterMap fun
    | .to _ _ => none
    | .inherit parent _ _ => some (d.heritage parent))
termination_by type.rank

/-- What runs when a table is computed, with what each of the declarations has collected. -/
theorem runsBelow_eq (d : Declarations) (bound : Nat) (type : EventType) (below : type.rank < bound) :
    d.runsBelow bound type below =
      (d.heritage type).postorder.map fun t => (t, (d.collected t).topics) := by
  induction bound generalizing type with
  | zero => cases below
  | succ bound ih =>
    rw [runsBelow, heritage, Heritage.postorder, Heritage.allPostorder_eq, List.map_append,
      List.map_singleton]
    congr 1
    generalize d.of type = steps
    induction steps with
    | nil => rfl
    | cons step steps rest =>
      rw [List.flatMap_cons, rest]
      cases step with
      | «to» target cast => rfl
      | inherit parent lower embedding =>
        simp only [List.filterMap_cons, List.flatMap_cons, List.map_append, ih]

theorem runs_eq (d : Declarations) (type : EventType) :
    d.runs type = (d.heritage type).postorder.map fun t => (t, (d.collected t).topics) :=
  d.runsBelow_eq _ type _

end Declarations

/-- What a deed makes of the declarations in force. -/
def Deed.declares (d : Declarations) : Deed μ → Declarations
  | .step (.declare type steps) _ => d.set type steps
  | _ => d

/-- The declarations in force after all that has been done. -/
def Trace.declarations (trace : Trace μ) : Declarations :=
  trace.foldr (fun entry d => entry.2.declares d) .silent

theorem Trace.declarations_append {later trace : Trace μ}
    (h : ∀ t type steps, (t, .step (.declare type steps) ()) ∉ later) :
    Trace.declarations (later ++ trace) = trace.declarations := by
  induction later with
  | nil => rfl
  | cons entry later ih =>
    obtain ⟨t, deed⟩ := entry
    have hdeed : deed.declares (Trace.declarations (later ++ trace)) =
        Trace.declarations (later ++ trace) := by
      unfold Deed.declares
      split
      · exact absurd List.mem_cons_self (h t _ _)
      · rfl
    exact hdeed.trans (ih fun u type steps hmem => h u type steps (List.mem_cons_of_mem _ hmem))

/-- What a deed writes down of declarations that run, if these are in force. -/
def Deed.runs (d : Declarations) : Deed μ → List Occurrence
  | .step (.computeTable _ b type) _ =>
    (d.heritage type).postorder.map fun t => .declared b t (d.collected t).topics
  | _ => []

/-- All declarations that have run, the earliest first. -/
def Trace.runs : Trace μ → List Occurrence
  | [] => []
  | (_, deed) :: before => Trace.runs before ++ deed.runs (Trace.declarations before)

def Occurrence.isDeclared : Occurrence → Bool
  | .declared _ _ _ => true
  | _ => false

theorem Step.declarations_run {s : Step μ} {reply : s.Reply} {w w' : World μ}
    (h : s.run w = some (reply, w')) :
    w'.declarations = Deed.declares w.declarations (.step s reply) := by
  cases s with
  | declare type steps => cases h; rfl
  | computeTable t b type =>
    cases h
    rw [World.recordAll_eq]
    rfl
  | readBus | keepTable | share | acquire | send =>
    obtain ⟨_, -, heq⟩ := Option.map_eq_some_iff.mp h
    cases heq
    rfl
  | enrol | dismiss | borrow | join | joinTask | rest | await =>
    rw [run] at h
    split at h <;> cases h <;> rfl
  | _ => cases h; rfl

/-- The declarations that a step runs are written down, unless a thread writes such things by itself. -/
theorem Step.recorded_declared {s : Step μ} {reply : s.Reply} {w w' : World μ}
    (h : s.run w = some (reply, w')) (hs : ∀ o ∈ s.occurrence?, o.isDeclared = false) :
    w'.recorded Occurrence.isDeclared =
      w.recorded Occurrence.isDeclared ++ Deed.runs w.declarations (.step s reply) := by
  cases s with
  | record t o =>
    cases h
    rw [World.recorded_record, List.filter_singleton, hs o rfl]
    rfl
  | computeTable t b type =>
    cases h
    rw [World.recorded_recordAll, Declarations.runs_eq, List.map_map, List.filter_eq_self.mpr]
    · rfl
    · intro o ho
      obtain ⟨_, -, rfl⟩ := List.mem_map.mp ho
      rfl
  | _ =>
    rw [World.recorded_of_history_eq (history_eq h rfl nofun)]
    exact (List.append_nil _).symm

/-- What is in force and what has run can be told from the trace. -/
structure World.Follows (w : World μ) (trace : Trace μ) : Prop where
  declarations : w.declarations = trace.declarations
  recorded : w.recorded Occurrence.isDeclared = trace.runs

namespace World.Follows

variable {w w' : World μ} {trace : Trace μ}

theorem step (h : w.Follows trace) {t : Turn} {s : Step μ} {reply : s.Reply}
    (hrun : s.run w = some (reply, w')) (hs : ∀ o ∈ s.occurrence?, o.isDeclared = false) :
    w'.Follows ((t, .step s reply) :: trace) where
  declarations := by
    rw [Step.declarations_run hrun, h.declarations]
    rfl
  recorded := by
    rw [Step.recorded_declared hrun hs, h.recorded, h.declarations]
    rfl

/-- Nothing else changes either of them. -/
theorem aside (h : w.Follows trace) (hdeclarations : w'.declarations = w.declarations)
    (hhistory : w'.history = w.history) : w'.Follows trace where
  declarations := hdeclarations.trans h.declarations
  recorded := (World.recorded_of_history_eq hhistory).trans h.recorded

/-- A deed that is no step neither declares nor runs anything. -/
theorem cons (h : w.Follows trace) (t : Turn) {deed : Deed μ} (hdeclares : ∀ d, deed.declares d = d)
    (hruns : ∀ d, deed.runs d = []) : w.Follows ((t, deed) :: trace) where
  declarations := by
    rw [h.declarations, Trace.declarations, Trace.declarations, List.foldr_cons, hdeclares]
  recorded := by rw [h.recorded, Trace.runs, hruns, List.append_nil]

end World.Follows

theorem Conduct.Lawful.follows {C : Conduct μ}
    (hallows : ∀ g t o, C.allows g (.record t o) → o.isDeclared = false) {trace : Trace μ}
    {w : World μ} (h : C.Lawful trace w) : w.Follows trace := by
  induction h with
  | start memory => exact ⟨rfl, rfl⟩
  | @step _ _ _ _ s _ _ allowed world ih =>
    refine ih.step world fun o ho => ?_
    cases s <;> cases ho
    exact hallows _ _ o allowed
  | took _ _ _ world ih => exact (ih.aside world.2.2.2.2 world.2.1).cons _ (fun _ => rfl) fun _ => rfl
  | woke _ _ _ world ih =>
    exact (ih.aside world.declarations world.history).cons _ (fun _ => rfl) fun _ => rfl
  | rested _ world ih => exact ih.aside world.declarations world.history

end PubSub
