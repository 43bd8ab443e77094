import PubSub.Proofs.Plain

/-!
# What a sequence of deliveries shows

The deliveries of a post to plain handlers, made one after another. A post on the publisher's thread
makes them up to the first that stops it, and what it shows is what all of them would show, cut there.
-/
namespace PubSub

variable {μ : Type} {β : Behaviour μ} {host : Host}

/-- A delivery that has been made, and how its handler ended. -/
structure DeliveryResult where
  delivery : Delivery
  reaction : Reaction

/-- The call of the handler and the reports of its failure. -/
def Host.lines (host : Host) (x : DeliveryResult) : List Occurrence :=
  x.delivery.calls ++ x.reaction.cause?.elim [] (host.reports x.delivery.invocation)

/-- From this memory on, all deliveries go like this, on whichever threads they are made. -/
inductive Host.Delivers (β : Behaviour μ) (host : Host) : List Delivery → μ → List DeliveryResult →
    Prop where
  | finished (m : μ) : Delivers β host [] m []
  | next {d : Delivery} {ds : List Delivery} {m m₁ m₂ : μ} {r : Reaction} {results : List DeliveryResult}
      (handler : ∀ seat : Seat,
        host.Plays (runHandler (β.seated seat) seat.thread d) m r m₁ d.calls)
      (fine : r.cause? = none → m₂ = m₁)
      (observers : ∀ cause, r.cause? = some cause → ∀ seat : Seat,
        host.Plays (tellAll (β.seated seat) seat.thread d.invocation cause) m₁
          (d.invocation.failure host.identifier cause) m₂ (host.reports d.invocation cause))
      (rest : Delivers β host ds m₂ results) : Delivers β host (d :: ds) m (⟨d, r⟩ :: results)

theorem exists_delivers (hobservers : ∀ observer ∈ host.observers, observer.IsPlain β)
    {ds : List Delivery} (hhandlers : ∀ d ∈ ds, d.invocation.bus = host.bus ∧
      ∀ object, (β.handle d.invocation.subscription.body object).IsPlain) (m : μ) :
    ∃ results, host.Delivers β ds m results := by
  induction ds generalizing m with
  | nil => exact ⟨[], .finished m⟩
  | cons d ds ih =>
    obtain ⟨⟨hbus, hplain⟩, hrest⟩ := List.forall_mem_cons.mp hhandlers
    obtain ⟨r, m₁, hhandler⟩ := exists_plays_runHandler hplain hbus m
    cases hcause : r.cause? with
    | none =>
      obtain ⟨results, hdelivers⟩ := ih hrest m₁
      exact ⟨_, .next hhandler (fun _ => rfl) (fun cause h => by rw [hcause] at h; cases h) hdelivers⟩
    | some cause =>
      obtain ⟨m₂, htold⟩ := exists_plays_tellAll hobservers hbus cause m₁
      obtain ⟨results, hdelivers⟩ := ih hrest m₂
      refine ⟨_, .next hhandler (fun h => by rw [hcause] at h; cases h) (fun cause' h => ?_) hdelivers⟩
      rw [hcause] at h
      cases h
      exact htold

/-- A list up to its first element with a property, which is kept. -/
def throughFirst {A : Type} (stops : A → Bool) : List A → List A
  | [] => []
  | x :: rest => x :: if stops x then [] else throughFirst stops rest

theorem throughFirst_of_stops {A : Type} {stops : A → Bool} {x : A} (h : stops x = true) (rest : List A) :
    throughFirst stops (x :: rest) = [x] := by
  rw [throughFirst, if_pos h]

theorem throughFirst_of_goes_on {A : Type} {stops : A → Bool} {x : A} (h : stops x = false)
    (rest : List A) : throughFirst stops (x :: rest) = x :: throughFirst stops rest := by
  rw [throughFirst, if_neg (by rw [h]; exact Bool.false_ne_true)]

/-- A post on the publisher's thread makes the deliveries until a handler ends so that the policy stops
it. -/
theorem Host.Delivers.plays_deliverAll {ds : List Delivery} {m : μ} {results : List DeliveryResult}
    (h : host.Delivers β ds m results) (policy : ErrorPolicy) (failures : List Failure) (seat : Seat) :
    ∃ outcome m', host.Plays (deliverAll (β.seated seat) seat.thread policy failures ds) m outcome m'
      ((throughFirst (policy.stops ·.reaction) results).flatMap host.lines) := by
  induction h generalizing failures with
  | finished m => exact ⟨_, m, plays_done _ m⟩
  | @next d ds m m₁ m₂ r results handler fine observers rest ih =>
    have htold : ∀ {cause}, r.cause? = some cause → ∀ outcome : Failure → Outcome,
        host.Plays ((tellAll (β.seated seat) seat.thread d.invocation cause).bind fun failure =>
          .done (outcome failure)) m₁ (outcome (d.invocation.failure host.identifier cause)) m₂
          (host.reports d.invocation cause) := by
      intro cause hcause outcome
      have hall := (observers cause hcause seat).bind (f := fun failure => .done (outcome failure))
        (plays_done _ m₂)
      rwa [List.append_nil] at hall
    cases r with
    | fine =>
      obtain ⟨outcome, m', hrest⟩ := ih failures
      refine ⟨outcome, m', ?_⟩
      rw [throughFirst_of_goes_on (by cases policy <;> rfl), List.flatMap_cons, Host.lines]
      exact (List.append_nil d.calls).symm ▸ (handler seat).bind (fine rfl ▸ hrest)
    | panicked payload =>
      refine ⟨.panicked payload, m₂, ?_⟩
      rw [throughFirst_of_stops (by cases policy <;> rfl), List.flatMap_singleton, Host.lines]
      exact (handler seat).bind (htold rfl fun _ => .panicked payload)
    | failed error =>
      cases policy with
      | propagate =>
        refine ⟨.failed (.handlerFailed (d.invocation.failure host.identifier (.error error))), m₂, ?_⟩
        rw [throughFirst_of_stops rfl, List.flatMap_singleton, Host.lines]
        exact (handler seat).bind (htold rfl fun failure => .failed (.handlerFailed failure))
      | collect =>
        obtain ⟨outcome, m', hrest⟩ :=
          ih (failures ++ [d.invocation.failure host.identifier (.error error)])
        refine ⟨outcome, m', ?_⟩
        rw [throughFirst_of_goes_on rfl, List.flatMap_cons, Host.lines, List.append_assoc]
        exact (handler seat).bind ((observers _ rfl seat).bind hrest)

theorem plays_runJob {d : Delivery} {m m₁ m₂ : μ} {r : Reaction} {seat : Seat}
    (handler : host.Plays (runHandler (β.seated seat) seat.thread d) m r m₁ d.calls)
    (fine : r.cause? = none → m₂ = m₁)
    (observers : ∀ cause, r.cause? = some cause →
      host.Plays (tellAll (β.seated seat) seat.thread d.invocation cause) m₁
        (d.invocation.failure host.identifier cause) m₂ (host.reports d.invocation cause))
    (executor : String) :
    host.Plays (runJob (β.seated seat) seat.thread (.delivery d executor)) m none m₂
      (host.lines ⟨d, r⟩) := by
  have hsettled : host.Plays ((Proc.record (μ := μ) seat.thread (.settled d.invocation)).bind
      fun _ => .done (none : Option Payload)) m₂ none m₂ [] :=
    ((computes_record seat.thread (.settled d.invocation) m₂).bind (f := fun _ => .done none)
      (computes_done _ m₂)).plays
  have htold : ∀ cause, r.cause? = some cause →
      host.Plays ((tellAll (β.seated seat) seat.thread d.invocation cause).bind fun _ =>
        (Proc.record (μ := μ) seat.thread (.settled d.invocation)).bind fun _ =>
          .done (none : Option Payload)) m₁ none m₂ (host.reports d.invocation cause) := by
    intro cause hcause
    have hall := (observers cause hcause).bind (f := fun _ =>
      (Proc.record (μ := μ) seat.thread (.settled d.invocation)).bind fun _ => .done none) hsettled
    rwa [List.append_nil] at hall
  cases r with
  | fine => exact handler.bind (fine rfl ▸ hsettled)
  | failed error => exact handler.bind (htold _ rfl)
  | panicked payload => exact handler.bind (htold _ rfl)

/-- From this world on, these deliveries make the callbacks such in all. -/
def Host.Completes (host : Host) (β : Behaviour μ) (ds : List Delivery) (w : World μ)
    (total : List Occurrence) : Prop :=
  ∃ m results, w.Hosts host m ∧ host.Delivers β ds m results ∧
    total = w.callbacks ++ results.flatMap host.lines

namespace Host.Completes

variable {d : Delivery} {ds : List Delivery} {v w : World μ} {total : List Occurrence}

theorem isPrefix_callbacks (h : host.Completes β ds w total) : w.callbacks <+: total := by
  obtain ⟨m, results, -, -, rfl⟩ := h
  exact List.prefix_append ..

theorem callbacks_eq (h : host.Completes β [] w total) : w.callbacks = total := by
  obtain ⟨m, results, -, hdelivers, rfl⟩ := h
  cases hdelivers
  exact (List.append_nil _).symm

theorem of_matches (h : host.Completes β ds w total) (hv : v.Matches w) :
    host.Completes β ds v total := by
  obtain ⟨m, results, hw, hdelivers, htotal⟩ := h
  exact ⟨m, results, hw.of_buses hv.buses (hv.memory.trans hw.memory), hdelivers, hv.callbacks ▸ htotal⟩

/-- The first of them as a job. -/
theorem exists_leads_runJob (h : host.Completes β (d :: ds) w total) (executor : String) (seat : Seat) :
    ∃ w', (runJob (β.seated seat) seat.thread (.delivery d executor)).Leads w none w' ∧
      host.Completes β ds w' total := by
  obtain ⟨m, results, hw, hdelivers, rfl⟩ := h
  cases hdelivers with
  | @next _ _ _ _ m' r results handler fine observers rest =>
  obtain ⟨w', hrun, hw', hadds⟩ :=
    plays_runJob (handler seat) fine (fun cause hcause => observers cause hcause seat) executor w hw
  refine ⟨w', hrun, m', results, hw', rest, ?_⟩
  rw [hadds.callbacks, List.flatMap_cons, List.append_assoc]

end Host.Completes

/-- A failure with this cause stops a post. -/
def ErrorPolicy.cuts : ErrorPolicy → Cause → Bool
  | _, .panicked _ => true
  | .propagate, .error _ => true
  | _, _ => false

def Occurrence.isReportOn (i : Invocation) : Occurrence → Bool
  | .reported j _ _ _ => j = i
  | _ => false

/-- A sequence of callbacks up to the first failure that stops a post, and the reports of that failure. -/
def cutAfter (stops : Cause → Bool) : List Occurrence → List Occurrence
  | [] => []
  | o :: rest =>
    match o with
    | .reported i _ _ failure =>
      if stops failure.cause then o :: rest.takeWhile (Occurrence.isReportOn i)
      else o :: cutAfter stops rest
    | _ => o :: cutAfter stops rest

theorem ErrorPolicy.stops_eq (policy : ErrorPolicy) (r : Reaction) :
    policy.stops r = r.cause?.any policy.cuts := by
  cases policy <;> cases r <;> rfl

section Cut

variable {stops : Cause → Bool} {i : Invocation} {cause : Cause}

theorem cutAfter_calls (stops : Cause → Bool) (d : Delivery) (rest : List Occurrence) :
    cutAfter stops (d.calls ++ rest) = d.calls ++ cutAfter stops rest := by
  rw [Delivery.calls]
  cases d.route.follow d.invocation.event d.invocation.subscription.topic with
  | none => rfl
  | some object => rfl

/-- All of these are reports of one failure. -/
def AreReports (i : Invocation) (cause : Cause) (l : List Occurrence) : Prop :=
  ∀ o ∈ l, ∃ place observer failure, o = .reported i place observer failure ∧ failure.cause = cause

theorem areReports (host : Host) (i : Invocation) (cause : Cause) :
    AreReports i cause (host.reports i cause) := by
  intro o ho
  obtain ⟨⟨observer, place⟩, -, rfl⟩ := List.mem_map.mp ho
  exact ⟨place, observer, _, rfl, rfl⟩

theorem cutAfter_of_goes_on {l : List Occurrence} (hl : AreReports i cause l)
    (hstops : stops cause = false)
    (rest : List Occurrence) : cutAfter stops (l ++ rest) = l ++ cutAfter stops rest := by
  induction l with
  | nil => rfl
  | cons o l ih =>
    obtain ⟨ho, hrest⟩ := List.forall_mem_cons.mp hl
    obtain ⟨place, observer, failure, rfl, hcause⟩ := ho
    rw [List.cons_append, cutAfter, hcause, hstops, if_neg Bool.false_ne_true, ih hrest]
    rfl

theorem cutAfter_of_stops {l : List Occurrence} (hl : AreReports i cause l) (hsome : l ≠ [])
    (hstops : stops cause = true) {rest : List Occurrence}
    (hrest : ∀ o ∈ rest, o.isReportOn i = false) : cutAfter stops (l ++ rest) = l := by
  cases l with
  | nil => exact absurd rfl hsome
  | cons o l =>
    obtain ⟨ho, hlater⟩ := List.forall_mem_cons.mp hl
    obtain ⟨place, observer, failure, rfl, hcause⟩ := ho
    have hall : ∀ o ∈ l, o.isReportOn i = true := by
      intro o ho
      obtain ⟨place, observer, failure, rfl, -⟩ := hlater o ho
      exact decide_eq_true rfl
    have hnone : rest.takeWhile (Occurrence.isReportOn i) = [] := by
      cases rest with
      | nil => rfl
      | cons o rest =>
        rw [List.takeWhile_cons_of_neg (by rw [hrest o List.mem_cons_self]; exact Bool.false_ne_true)]
    rw [List.cons_append, cutAfter, hcause, hstops, if_pos rfl, List.takeWhile_append_of_pos hall, hnone,
      List.append_nil]

end Cut

/-- The lines of a stint are about its invocation. -/
theorem isReportOn_of_mem_lines {x : DeliveryResult} {i : Invocation} (hne : x.delivery.invocation ≠ i)
    {o : Occurrence} (ho : o ∈ host.lines x) : o.isReportOn i = false := by
  rcases List.mem_append.mp ho with ho | ho
  · obtain ⟨object, -, rfl⟩ := List.mem_map.mp ho
    rfl
  · cases hcause : x.reaction.cause? with
    | none => rw [hcause] at ho; cases ho
    | some cause =>
      rw [hcause] at ho
      obtain ⟨place, observer, failure, rfl, -⟩ := areReports host _ cause o ho
      exact decide_eq_false hne

/-- What the results show up to the first that stops a post is what all of them show, cut there. -/
theorem cutAfter_lines (policy : ErrorPolicy) (hobservers : host.observers ≠ [])
    {results : List DeliveryResult} (hnodup : (results.map fun x => x.delivery.invocation).Nodup) :
    cutAfter policy.cuts (results.flatMap host.lines) =
      (throughFirst (policy.stops ·.reaction) results).flatMap host.lines := by
  induction results with
  | nil => rfl
  | cons x results ih =>
    obtain ⟨hnew, hrest⟩ := List.nodup_cons.mp hnodup
    have hothers : ∀ o ∈ results.flatMap host.lines, o.isReportOn x.delivery.invocation = false := by
      intro o ho
      obtain ⟨y, hy, ho⟩ := List.mem_flatMap.mp ho
      exact isReportOn_of_mem_lines (fun heq => hnew (List.mem_map.mpr ⟨y, hy, heq⟩)) ho
    have hstops := policy.stops_eq x.reaction
    rw [List.flatMap_cons]
    nth_rewrite 1 [Host.lines]
    rw [List.append_assoc, cutAfter_calls]
    cases hcause : x.reaction.cause? with
    | none =>
      rw [hcause] at hstops
      rw [throughFirst_of_goes_on (x := x) hstops, List.flatMap_cons, ← ih hrest, Host.lines, hcause,
        List.append_assoc]
      rfl
    | some cause =>
      rw [hcause] at hstops
      cases hcut : policy.cuts cause with
      | false =>
        rw [Option.any_some, hcut] at hstops
        rw [throughFirst_of_goes_on (x := x) hstops, List.flatMap_cons, ← ih hrest, Option.elim_some,
          cutAfter_of_goes_on (areReports _ _ _) hcut, Host.lines, hcause, List.append_assoc]
        rfl
      | true =>
        rw [Option.any_some, hcut] at hstops
        have hsome : host.reports x.delivery.invocation cause ≠ [] := by
          simpa [Host.reports] using hobservers
        rw [throughFirst_of_stops (x := x) hstops, List.flatMap_singleton, Option.elim_some,
          cutAfter_of_stops (areReports _ _ _) hsome hcut hothers, Host.lines, hcause]
        rfl

end PubSub
