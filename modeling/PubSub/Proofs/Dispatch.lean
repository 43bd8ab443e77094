import PubSub.Proofs.Fate

/-!
# How a publisher's thread goes through its handlers

A post that is delivered on the publisher's thread invokes handlers one after another. Which of them
it invokes and what it answers follow from how they end and from the policy of the bus.
-/
namespace PubSub

variable {μ : Type}

/-- One run of a handler by a post: with which object it was called and how it ended. -/
structure Performance where
  invocation : Invocation
  object : Object
  reaction : Reaction

/-- A handler that ends like this is the last one that its post invokes. -/
def ErrorPolicy.stops : ErrorPolicy → Reaction → Bool
  | _, .fine => false
  | .propagate, .failed _ => true
  | .collect, .failed _ => false
  | _, .panicked _ => true

namespace World

variable (w : World μ)

def failure (i : Invocation) (cause : Cause) : Failure :=
  i.failure (w.bus i.bus).settings.identifier cause

/-- What is written down about one run of a handler. -/
def told (x : Performance) : List Occurrence :=
  .called x.invocation x.object :: .ended x.invocation x.reaction ::
    x.reaction.cause?.elim [] (w.reports x.invocation)

/-- The failures of the handlers that returned an error, in the order of their runs. -/
def errors (ran : List Performance) : List Failure :=
  ran.filterMap fun x =>
    match x.reaction with
    | .failed e => some (w.failure x.invocation (.error e))
    | _ => none

/-- With these failures collected so far and these invocations to come, a post runs these handlers
and ends like this. -/
inductive Dispatch (policy : ErrorPolicy) :
    List Failure → List Invocation → List Performance → Outcome → Prop where
  | finished (failures : List Failure) :
      Dispatch policy failures [] []
        (if failures.isEmpty then .ok else .failed (.handlersFailed failures))
  | fine {failures : List Failure} {i : Invocation} {todo : List Invocation} (object : Object)
      {ran : List Performance} {outcome : Outcome} (rest : Dispatch policy failures todo ran outcome) :
      Dispatch policy failures (i :: todo) (⟨i, object, .fine⟩ :: ran) outcome
  | panicked (failures : List Failure) (i : Invocation) (todo : List Invocation) (object : Object)
      (payload : Payload) :
      Dispatch policy failures (i :: todo) [⟨i, object, .panicked payload⟩] (.panicked payload)
  | stopped (propagates : policy = .propagate) (failures : List Failure) (i : Invocation)
      (todo : List Invocation) (object : Object) (error : HandlerError) :
      Dispatch policy failures (i :: todo) [⟨i, object, .failed error⟩]
        (.failed (.handlerFailed (w.failure i (.error error))))
  | noted (collects : policy = .collect) {failures : List Failure} {i : Invocation}
      {todo : List Invocation} (object : Object) (error : HandlerError) {ran : List Performance}
      {outcome : Outcome}
      (rest : Dispatch policy (failures ++ [w.failure i (.error error)]) todo ran outcome) :
      Dispatch policy failures (i :: todo) (⟨i, object, .failed error⟩ :: ran) outcome

/-- What a post has run and what it answers, for these matched handlers. -/
structure Concludes (policy : ErrorPolicy) (matched : List Invocation) (ran : List Performance)
    (outcome : Outcome) : Prop where
  in_order : ran.map Performance.invocation <+: matched
  goes_on : ∀ x ∈ ran.dropLast, policy.stops x.reaction = false
  to_the_end : (∀ x ∈ ran, policy.stops x.reaction = false) →
    ran.map Performance.invocation = matched
  ok_iff : outcome = .ok ↔
    ran.map Performance.invocation = matched ∧ ∀ x ∈ ran, x.reaction = .fine
  first_error : policy = .propagate → ∀ x ∈ ran, ∀ error, x.reaction = .failed error →
    outcome = .failed (.handlerFailed (w.failure x.invocation (.error error)))
  all_errors : policy = .collect → (∀ x ∈ ran, ∀ payload, x.reaction ≠ .panicked payload) →
    (∃ x ∈ ran, x.reaction ≠ .fine) →
    w.errors ran ≠ [] ∧ outcome = .failed (.handlersFailed (w.errors ran))
  panic_iff : ∀ payload, outcome = .panicked payload ↔ ∃ x ∈ ran, x.reaction = .panicked payload

variable {w}

theorem invocation?_of_mem_reports {i : Invocation} {cause : Cause} {o : Occurrence}
    (h : o ∈ w.reports i cause) : o.invocation? = some i := by
  obtain ⟨_, -, rfl⟩ := List.mem_map.mp h
  rfl

theorem invocation?_of_mem_told {x : Performance} {o : Occurrence} (h : o ∈ w.told x) :
    o.invocation? = some x.invocation := by
  rcases List.mem_cons.mp h with rfl | h
  · rfl
  rcases List.mem_cons.mp h with rfl | h
  · rfl
  cases hcause : x.reaction.cause? with
  | none => rw [hcause] at h; cases h
  | some cause =>
    rw [hcause] at h
    exact invocation?_of_mem_reports h

variable {policy : ErrorPolicy} {failures : List Failure} {matched : List Invocation}
  {ran : List Performance} {outcome : Outcome}

namespace Dispatch

theorem in_order (h : w.Dispatch policy failures matched ran outcome) :
    ran.map Performance.invocation <+: matched := by
  induction h with
  | finished failures => exact List.nil_prefix
  | fine object rest ih => exact (List.prefix_cons_inj _).mpr ih
  | panicked failures i todo object payload => exact (List.prefix_cons_inj _).mpr List.nil_prefix
  | stopped hp failures i todo object error => exact (List.prefix_cons_inj _).mpr List.nil_prefix
  | noted hp object error rest ih => exact (List.prefix_cons_inj _).mpr ih

theorem goes_on (h : w.Dispatch policy failures matched ran outcome) :
    ∀ x ∈ ran.dropLast, policy.stops x.reaction = false := by
  induction h with
  | finished => exact List.forall_mem_nil _
  | @fine _ i _ object ran _ _ ih =>
    cases ran with
    | nil => exact List.forall_mem_nil _
    | cons y ran =>
      refine List.forall_mem_cons.mpr ⟨?_, ih⟩
      cases policy <;> rfl
  | panicked => exact List.forall_mem_nil _
  | stopped => exact List.forall_mem_nil _
  | @noted hp _ i _ object error ran _ _ ih =>
    cases ran with
    | nil => exact List.forall_mem_nil _
    | cons y ran => exact List.forall_mem_cons.mpr ⟨hp ▸ rfl, ih⟩

theorem to_the_end (h : w.Dispatch policy failures matched ran outcome)
    (hon : ∀ x ∈ ran, policy.stops x.reaction = false) :
    ran.map Performance.invocation = matched := by
  induction h with
  | finished => rfl
  | fine object rest ih =>
    exact congrArg (List.cons _) (ih fun x hx => hon x (List.mem_cons_of_mem _ hx))
  | panicked failures i todo object payload =>
    have hstops := hon _ List.mem_cons_self
    cases policy <;> cases hstops
  | stopped hp =>
    have hstops := hon _ List.mem_cons_self
    subst hp
    cases hstops
  | noted hp object error rest ih =>
    exact congrArg (List.cons _) (ih fun x hx => hon x (List.mem_cons_of_mem _ hx))

theorem ok_iff (h : w.Dispatch policy failures matched ran outcome) :
    outcome = .ok ↔ failures = [] ∧ ran.map Performance.invocation = matched ∧
      ∀ x ∈ ran, x.reaction = .fine := by
  induction h with
  | finished failures => cases failures <;> simp
  | fine object rest ih => simpa using ih
  | panicked => simp
  | stopped => simp
  | noted hp object error rest ih => simpa using ih

theorem first_error (h : w.Dispatch .propagate failures matched ran outcome) :
    ∀ x ∈ ran, ∀ error, x.reaction = .failed error →
      outcome = .failed (.handlerFailed (w.failure x.invocation (.error error))) := by
  generalize hpolicy : ErrorPolicy.propagate = policy at h
  induction h with
  | finished => exact List.forall_mem_nil _
  | fine object rest ih => exact List.forall_mem_cons.mpr ⟨nofun, ih⟩
  | panicked => exact List.forall_mem_cons.mpr ⟨nofun, List.forall_mem_nil _⟩
  | stopped =>
    refine List.forall_mem_cons.mpr ⟨?_, List.forall_mem_nil _⟩
    rintro _ ⟨⟩
    rfl
  | noted hp =>
    rw [hp] at hpolicy
    cases hpolicy

theorem panic_iff (h : w.Dispatch policy failures matched ran outcome) (payload : Payload) :
    outcome = .panicked payload ↔ ∃ x ∈ ran, x.reaction = .panicked payload := by
  induction h with
  | finished failures => cases failures <;> simp
  | fine object rest ih => simpa using ih
  | panicked => simp
  | stopped => simp
  | noted hp object error rest ih => simpa using ih

/-- Without a panic everything that was collected is answered. -/
theorem all_errors (h : w.Dispatch .collect failures matched ran outcome)
    (hcalm : ∀ x ∈ ran, ∀ payload, x.reaction ≠ .panicked payload)
    (hsome : failures ++ w.errors ran ≠ []) :
    outcome = .failed (.handlersFailed (failures ++ w.errors ran)) := by
  generalize hpolicy : ErrorPolicy.collect = policy at h
  induction h with
  | finished failures =>
    rw [errors, List.filterMap_nil, List.append_nil] at hsome ⊢
    rw [if_neg fun hempty => hsome (List.isEmpty_iff.mp hempty)]
  | fine object rest ih =>
    exact ih (fun x hx => hcalm x (List.mem_cons_of_mem _ hx)) hsome
  | panicked => exact absurd rfl (hcalm _ List.mem_cons_self _)
  | stopped hp =>
    rw [hp] at hpolicy
    cases hpolicy
  | @noted _ failures i _ object error ran _ rest ih =>
    have herrors : failures ++ w.errors (⟨i, object, .failed error⟩ :: ran) =
        failures ++ [w.failure i (.error error)] ++ w.errors ran := List.append_cons ..
    rw [herrors] at hsome ⊢
    exact ih (fun x hx => hcalm x (List.mem_cons_of_mem _ hx)) hsome

theorem concludes (h : w.Dispatch policy [] matched ran outcome) :
    w.Concludes policy matched ran outcome := by
  refine ⟨h.in_order, h.goes_on, h.to_the_end, ?_, ?_, ?_, h.panic_iff⟩
  · rw [h.ok_iff, eq_self, true_and]
  · rintro rfl
    exact h.first_error
  · rintro rfl hcalm ⟨x, hx, hreaction⟩
    have hsome : w.errors ran ≠ [] := by
      obtain ⟨i, object, r⟩ := x
      cases r with
      | fine => exact absurd rfl hreaction
      | failed error => exact List.ne_nil_of_mem (List.mem_filterMap.mpr ⟨_, hx, rfl⟩)
      | panicked payload => exact absurd rfl (hcalm _ hx payload)
    exact ⟨hsome, h.all_errors hcalm hsome⟩

end Dispatch

end World

end PubSub
