import PubSub.Proofs.Life

/-!
# What the history says about one thing

The history in the order in which it was written, as far as it is about one post, one invocation or
whatever else is asked for.
-/
namespace PubSub

variable {μ : Type}

/-- The post that an occurrence belongs to. -/
def Occurrence.post? : Occurrence → Option PostId
  | .selected id _ => some id
  | .answered id _ => some id
  | o => o.invocation?.map Invocation.post

theorem Occurrence.post?_of_invocation? {o : Occurrence} {i : Invocation}
    (h : o.invocation? = some i) : o.post? = some i.post := by
  cases o <;> cases h <;> rfl

namespace World

/-- What has been written down of a kind, the earliest first. -/
def recorded (w : World μ) (keep : Occurrence → Bool) : List Occurrence :=
  (w.history.reverse.map Entry.occurrence).filter keep

/-- Everything that has happened in a post. -/
def story (w : World μ) (id : PostId) : List Occurrence := w.recorded (·.post? = some id)

variable {w w' : World μ} {keep : Occurrence → Bool}

theorem recorded_of_history_eq (h : w'.history = w.history) : w'.recorded keep = w.recorded keep := by
  rw [recorded, recorded, h]

theorem recorded_record (t : Thread) (o : Occurrence) :
    (w.record t o).recorded keep = w.recorded keep ++ [o].filter keep := by
  rw [recorded, record, List.reverse_cons, List.map_append, List.filter_append]
  rfl

theorem recorded_recordAll (t : Thread) (l : List Occurrence) :
    (w.recordAll t l).recorded keep = w.recorded keep ++ l.filter keep := by
  unfold recordAll
  induction l generalizing w with
  | nil => exact (List.append_nil _).symm
  | cons o l ih =>
    rw [List.foldl_cons, ih, recorded_record, List.append_assoc, ← List.filter_append]
    rfl

theorem mem_recorded {o : Occurrence} :
    o ∈ w.recorded keep ↔ (∃ t, ⟨t, o⟩ ∈ w.history) ∧ keep o = true := by
  rw [recorded, List.mem_filter, List.mem_map]
  refine and_congr_left fun _ => ?_
  constructor
  · rintro ⟨⟨t, o⟩, hmem, rfl⟩
    exact ⟨t, List.mem_reverse.mp hmem⟩
  · rintro ⟨t, hmem⟩
    exact ⟨_, List.mem_reverse.mpr hmem, rfl⟩

theorem mem_story {id : PostId} {o : Occurrence} :
    o ∈ w.story id ↔ (∃ t, ⟨t, o⟩ ∈ w.history) ∧ o.post? = some id := by
  rw [story, mem_recorded, decide_eq_true_iff]

/-- What has happened to an invocation is part of what has happened in its post. -/
theorem account_eq (i : Invocation) :
    w.account i = (w.story i.post).filter (·.invocation? = some i) := by
  rw [story, recorded, List.filter_filter]
  refine List.filter_congr fun o _ => ?_
  by_cases hi : o.invocation? = some i
  · simp [hi, Occurrence.post?_of_invocation? hi]
  · simp [hi]

end World

namespace Step

variable {s : Step μ} {reply : s.Reply} {w w' : World μ}

/-- Only records and computations of tables change the history. -/
theorem history_eq (h : s.run w = some (reply, w')) (hsilent : s.occurrence? = none)
    (hcompute : ∀ t b type, s ≠ .computeTable t b type) : w'.history = w.history := by
  cases s with
  | record => cases hsilent
  | computeTable t b type => exact absurd rfl (hcompute t b type)
  | readBus | keepTable | share | acquire | send =>
    obtain ⟨_, -, heq⟩ := Option.map_eq_some_iff.mp h
    cases heq
    rfl
  | enrol | dismiss | borrow | join | joinTask | rest | await =>
    rw [run] at h
    split at h <;> cases h <;> rfl
  | _ => cases h; rfl

/-- What a step adds to what has been written down, leaving aside declarations that ran. -/
theorem recorded_run (h : s.run w = some (reply, w')) {keep : Occurrence → Bool}
    (hkeep : ∀ b type collected, keep (.declared b type collected) = false) :
    w'.recorded keep = w.recorded keep ++ s.occurrence?.toList.filter keep := by
  cases s with
  | record t o =>
    cases h
    exact World.recorded_record t o
  | computeTable t b type =>
    cases h
    rw [World.recorded_recordAll]
    congr 1
    refine List.filter_eq_nil_iff.mpr ?_
    intro o ho
    obtain ⟨run, -, rfl⟩ := List.mem_map.mp ho
    rw [hkeep]
    exact Bool.false_ne_true
  | _ =>
    rw [World.recorded_of_history_eq (history_eq h rfl nofun)]
    exact (List.append_nil _).symm

end Step

/-- What is written down about a post has been written by a thread. -/
theorem Conduct.Lawful.exists_record {C : Conduct μ} {trace : Trace μ} {w : World μ}
    (h : C.Lawful trace w) {id : PostId} {o : Occurrence} (ho : o ∈ w.story id) :
    ∃ t name, (t, .step (.record name o) ()) ∈ trace := by
  have hlater : ∀ {trace : Trace μ} (entry : Turn × Deed μ),
      (∃ t name, (t, .step (.record name o) ()) ∈ trace) →
      ∃ t name, (t, .step (.record name o) ()) ∈ entry :: trace :=
    fun entry ⟨t, name, hmem⟩ => ⟨t, name, List.mem_cons_of_mem entry hmem⟩
  induction h with
  | start => cases ho
  | @step _ _ _ t s reply _ _ world ih =>
    rw [World.story, Step.recorded_run world fun _ _ _ => rfl] at ho
    rcases List.mem_append.mp ho with hold | hnew
    · exact hlater _ (ih hold)
    · have hs := Option.mem_toList.mp (List.mem_of_mem_filter hnew)
      cases s with
      | record name o' =>
        cases hs
        exact ⟨t, name, List.mem_cons_self⟩
      | _ => cases hs
  | took _ _ _ world ih =>
    rw [World.story, World.recorded_of_history_eq world.2.1] at ho
    exact hlater _ (ih ho)
  | woke _ _ _ world ih =>
    rw [World.story, World.recorded_of_history_eq world.history] at ho
    exact hlater _ (ih ho)
  | rested _ world ih =>
    rw [World.story, World.recorded_of_history_eq world.history] at ho
    exact ih ho

end PubSub
