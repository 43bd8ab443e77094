import PubSub.Proofs.Life

/-!
# What happens to an invocation

Everything that has happened to an invocation so far can be told from the place where it is. This
holds along every lawful trace, and there is never more than one such place.
-/
namespace PubSub

variable {μ : Type}

theorem Deed.occurrence?_of_accepted? {deed : Deed μ} {i : Invocation}
    (h : deed.accepted? = some i) : deed.occurrence? = none := by
  obtain ⟨_, _, _, -, rfl | rfl⟩ := eq_of_accepted? h <;> rfl

theorem Deed.occurrence?_of_taken? {deed : Deed μ} {i : Invocation} (h : deed.taken? = some i) :
    deed.occurrence? = none := by
  obtain ⟨_, _, -, rfl | ⟨_, _, rfl⟩⟩ := eq_of_taken? h <;> rfl

namespace Outlook

variable (O : Outlook)

/-- What has been reported about an invocation. -/
def reports (i : Invocation) (phase : Phase) : List Occurrence :=
  match phase.cause? with
  | none => []
  | some cause => ((O.observers i.bus).take phase.told).zipIdx.map fun (observer, place) =>
      .reported i place observer (i.failure (O.settings i.bus).identifier cause)

/-- What has happened to an invocation that a thread has in hand. -/
inductive Story (i : Invocation) : Phase → List Occurrence → Prop where
  | offered : Story i .offered []
  | taken : Story i .taken []
  | running {t : Thread} {object : Object} (bound : O.Bound i object) :
      Story i (.running t) [.called i object]
  | ended {r : Reaction} {told : Nat} {object : Object} (bound : O.Bound i object) :
      Story i (.ended r told) (.called i object :: .ended i r :: O.reports i (.ended r told))
  | lost {executor : String} {told : Nat} :
      Story i (.lost executor told) (.dropped i executor :: O.reports i (.lost executor told))

/-- Invocations in jobs and those that an executor refuses have been submitted. -/
def opening (i : Invocation) (job : Bool) : Phase → List Occurrence
  | .offered | .lost _ _ => [.submitted i]
  | _ => if job then [.submitted i] else []

/-- What has happened to an invocation that is in a place or, if it is in none, has not happened. -/
inductive Tells (i : Invocation) : Option Place → List Occurrence → Prop where
  | nowhere {l : List Occurrence} (unsubmitted : .submitted i ∉ l) : Tells i none l
  | unborn : Tells i (some .unborn) []
  | planned : Tells i (some .planned) []
  | held {job : Bool} {phase : Phase} {l : List Occurrence} (story : O.Story i phase l) :
      Tells i (some (.held job phase)) (opening i job phase ++ l)
  | stored : Tells i (some .stored) [.submitted i]
  | settled {phase : Phase} {l : List Occurrence} (isOver : phase.isOver = true)
      (complete : O.Complete ⟨i, phase, none⟩) (story : O.Story i phase l) :
      Tells i (some .settled) (.submitted i :: (l ++ [.settled i]))

variable {O} {i : Invocation}

theorem reports_of_told_eq_zero {phase : Phase} (h : phase.told = 0) : O.reports i phase = [] := by
  rw [reports, h]
  split <;> rfl

/-- What is told of an invocation in hand: calls, ends, losses and reports. -/
theorem Story.mem {phase : Phase} {l : List Occurrence} (h : O.Story i phase l) {o : Occurrence}
    (ho : o ∈ l) : (∃ object, o = .called i object) ∨ (∃ r, o = .ended i r) ∨
      (∃ executor, o = .dropped i executor) ∨
      ∃ place observer failure, o = .reported i place observer failure := by
  have hreports : o ∈ O.reports i phase → ∃ place observer failure,
      o = .reported i place observer failure := by
    intro ho
    rw [reports] at ho
    split at ho
    · cases ho
    · obtain ⟨_, -, rfl⟩ := List.mem_map.mp ho
      exact ⟨_, _, _, rfl⟩
  cases h with
  | offered => cases ho
  | taken => cases ho
  | running => exact .inl ⟨_, List.mem_singleton.mp ho⟩
  | ended =>
    rcases List.mem_cons.mp ho with rfl | ho
    · exact .inl ⟨_, rfl⟩
    · rcases List.mem_cons.mp ho with rfl | ho
      · exact .inr (.inl ⟨_, rfl⟩)
      · exact .inr (.inr (.inr (hreports ho)))
  | lost =>
    rcases List.mem_cons.mp ho with rfl | ho
    · exact .inr (.inr (.inl ⟨_, rfl⟩))
    · exact .inr (.inr (.inr (hreports ho)))

theorem Story.submitted_not_mem {phase : Phase} {l : List Occurrence} (h : O.Story i phase l) :
    .submitted i ∉ l := by
  intro ho
  obtain ⟨_, heq⟩ | ⟨_, heq⟩ | ⟨_, heq⟩ | ⟨_, _, _, heq⟩ := h.mem ho <;> cases heq

theorem Story.settled_not_mem {phase : Phase} {l : List Occurrence} (h : O.Story i phase l) :
    .settled i ∉ l := by
  intro ho
  obtain ⟨_, heq⟩ | ⟨_, heq⟩ | ⟨_, heq⟩ | ⟨_, _, _, heq⟩ := h.mem ho <;> cases heq

/-- The next observer in turn. -/
theorem reports_next {phase : Phase} {cause : Cause} {observer : Observer}
    (hcause : phase.cause? = some cause) (hnext : (O.observers i.bus)[phase.told]? = some observer) :
    O.reports i (phase.withTold (phase.told + 1)) = O.reports i phase ++
      [.reported i phase.told observer (i.failure (O.settings i.bus).identifier cause)] := by
  obtain ⟨hlt, rfl⟩ := List.getElem?_eq_some_iff.mp hnext
  have htold : (phase.withTold (phase.told + 1)).told = phase.told + 1 :=
    Phase.told_withTold (hcause ▸ rfl) _
  have hlength : ((O.observers i.bus).take phase.told).length = phase.told := by
    rw [List.length_take]
    omega
  rw [reports, reports, Phase.cause?_withTold, hcause, htold]
  simp only [List.take_add_one, List.getElem?_eq_getElem hlt, Option.toList_some, List.zipIdx_append,
    hlength, List.map_append]
  simp

theorem Story.report {phase : Phase} {l : List Occurrence} {cause : Cause} {observer : Observer}
    (h : O.Story i phase l) (hcause : phase.cause? = some cause)
    (hnext : (O.observers i.bus)[phase.told]? = some observer) :
    O.Story i (phase.withTold (phase.told + 1)) (l ++
      [.reported i phase.told observer (i.failure (O.settings i.bus).identifier cause)]) := by
  have hreports := reports_next (i := i) hcause hnext
  cases h with
  | offered => cases hcause
  | taken => cases hcause
  | running => cases hcause
  | ended bound =>
    rw [List.cons_append, List.cons_append, ← hreports]
    exact .ended bound
  | lost =>
    rw [List.cons_append, ← hreports]
    exact .lost

theorem opening_withTold {phase : Phase} (job : Bool) (n : Nat) :
    opening i job (phase.withTold n) = opening i job phase := by
  cases phase <;> rfl

theorem opening_of_mine {job : Bool} {phase : Phase}
    (h : job = true ∨ ∃ executor told, phase = .lost executor told) :
    opening i job phase = [.submitted i] := by
  rcases h with rfl | ⟨_, _, rfl⟩
  · cases phase <;> rfl
  · rfl

/-- An invocation that a thread may forget has never been submitted. -/
theorem Tells.unsubmitted {p : Place} {l : List Occurrence} (h : O.Tells i (some p) l)
    (hloose : p.isLoose = true) : .submitted i ∉ l := by
  cases h with
  | unborn => exact List.not_mem_nil
  | planned => exact List.not_mem_nil
  | stored => cases hloose
  | settled => cases hloose
  | @held job phase l story =>
    cases job <;> cases phase <;> cases hloose
    exact story.submitted_not_mem

/-- What a deed says about an invocation. -/
def said (i : Invocation) (deed : Deed μ) : List Occurrence :=
  deed.occurrence?.toList.filter (·.invocation? = some i)

theorem said_record (t : Thread) {o : Occurrence} (h : o.invocation? = some i) :
    said (μ := μ) i (.step (.record t o) ()) = [o] := List.filter_cons_of_pos (decide_eq_true h)

theorem said_of_occurrence? {deed : Deed μ} (h : deed.occurrence? = none) : said i deed = [] := by
  rw [said, h]
  rfl

theorem Turns.tells {deed : Deed μ} {p p' : Place} {l : List Occurrence} (h : O.Turns i deed p p')
    (htells : O.Tells i (some p) l) : O.Tells i (some p') (l ++ said i deed) := by
  cases h with
  | select =>
    cases htells
    exact .planned
  | submit =>
    cases htells
    rw [said_record _ rfl]
    exact .held .offered
  | accept accepted =>
    cases htells with
    | held story =>
    cases story
    rw [said_of_occurrence? (Deed.occurrence?_of_accepted? accepted)]
    exact .stored
  | refuse =>
    cases htells with
    | held story =>
    cases story
    rw [said_record _ rfl]
    exact .held .lost
  | take taken =>
    cases htells
    rw [said_of_occurrence? (Deed.occurrence?_of_taken? taken)]
    exact .held .taken
  | drop =>
    cases htells with
    | held story =>
    cases story
    rw [said_record _ rfl]
    exact .held .lost
  | share =>
    cases htells
    exact .held .taken
  | callPlanned bound =>
    cases htells
    rw [said_record _ rfl]
    exact .held (.running bound)
  | @call _ _ job bound =>
    cases htells with
    | held story =>
    cases story
    rw [said_record _ rfl, List.append_assoc]
    exact .held (.running bound)
  | @finish _ r job =>
    cases htells with
    | held story =>
    cases story with
    | running bound =>
    rw [said_record _ rfl, List.append_assoc]
    have hended : O.Story i (.ended r 0) _ := .ended bound
    rw [reports_of_told_eq_zero rfl] at hended
    exact .held hended
  | report cause next =>
    cases htells with
    | held story =>
    rw [said_record _ rfl, List.append_assoc, ← opening_withTold]
    exact .held (story.report cause next)
  | settle isOver mine complete =>
    cases htells with
    | held story =>
    rw [said_record _ rfl, opening_of_mine mine, List.append_assoc]
    exact .settled isOver complete story

end Outlook

end PubSub
