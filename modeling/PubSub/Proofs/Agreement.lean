import PubSub.Proofs.LockUse
import PubSub.Proofs.Relay

/-!
# Agreement of the ways of delivery

An event that is posted to plain handlers shows the same, whether the bus delivers on the publisher's
thread or an executor makes the deliveries one after another: only an error or a panic ends the first
early.
-/
namespace PubSub

open Program

variable {μ α : Type}

/-- Once nobody is at work, nobody is inside an exclusive handler. -/
theorem Run.isFree {β : Behaviour μ} {depth : Nat} {memory : μ} {body : Body μ α} {trace : Trace μ}
    {m : Machine μ α} (h : Run β depth memory body trace m) (hdone : ∀ t, ¬ m.IsAtWork t) (b : BusId) :
    (m.world.bus b).locks.IsFree := by
  obtain ⟨hlawful, horderly⟩ := h.protocol
  have htracks := (guarded hlawful).tracks b
  intro id
  cases hholder : ((m.world.bus b).locks.lock id).holder with
  | none => rfl
  | some name =>
    obtain ⟨-, hheld⟩ := htracks.busy id name hholder
    rw [held] at hheld
    have hthread : ∃ t, 0 < ((Outlook.of trace m.world).protocol.standing trace t).holds b id :=
      Roll.exists_of_total_pos ((Outlook.of trace m.world).protocol.nodup_roll trace) hheld
    obtain ⟨t, hholds⟩ := hthread
    obtain ⟨u, hu, -⟩ := List.countP_pos_iff.mp hholds
    refine absurd (Outlook.isAtWork_of_stack (horderly t) fun hnil => ?_) (hdone t)
    rw [Standing.usages, hnil] at hu
    cases hu

theorem Host.Delivers.map_delivery {β : Behaviour μ} {host : Host} {ds : List Delivery} {m : μ}
    {results : List DeliveryResult} (h : host.Delivers β ds m results) :
    results.map DeliveryResult.delivery = ds := by
  induction h with
  | finished => rfl
  | next _ _ _ _ ih => rw [List.map_cons, ih]

/-- A machine with one caller and nobody else at work. -/
def Machine.alone (w : World μ) (p : Proc μ α) : Machine μ α := ⟨w, [p], .empty, .empty⟩

section Shows

variable (w : World μ) (β : Behaviour μ) (b : BusId) (event : Event)

/-- A post that delivers on the publisher's thread comes to its end and adds these callbacks. -/
def World.ShowsInPlace (policy : ErrorPolicy) (shown : List Occurrence) : Prop :=
  ∀ n t, ∃ outcome w',
    (β.perform (n + 2) t (.post b event)).alone (w.configured b policy .publisher) =
      some (outcome, w') ∧ w'.callbacks = w.callbacks ++ shown

/-- A post to an executor that keeps its jobs comes to its end and adds no callbacks. These are added when
the jobs are run. -/
def World.ShowsLater (policy : ErrorPolicy) (e : ExecutorId) (shown : List Occurrence) : Prop :=
  ∀ n t, ∃ w',
    (β.perform (n + 2) t (.post b event)).alone (w.configured b policy (.executor e)) = some (.ok, w') ∧
    w'.callbacks = w.callbacks ∧
    ∀ n' t', (w.selected b event).length ≤ n' → ∃ w'',
      (β.perform (n' + 2) t' (.runAll e)).alone w' = some ((), w'') ∧ w''.callbacks = w.callbacks ++ shown

/-- While a post and the worker of its executor take turns, no callbacks are added but these, in this
order. Once both are done all have been added, and from everywhere it can come to that. -/
def World.ShowsMeanwhile (policy : ErrorPolicy) (e : ExecutorId) (shown : List Occurrence) : Prop :=
  ∀ n t m, (Machine.alone (w.configured b policy (.executor e))
      (β.perform (n + 2) t (.post b event))).Evolves β (n + 2) e m →
    m.world.callbacks <+: w.callbacks ++ shown ∧
    (m.HasRelayed e → m.world.callbacks = w.callbacks ++ shown) ∧
    ∃ m', m.Evolves β (n + 2) e m' ∧ m'.HasRelayed e

end Shows

section Agree

variable {w : World μ} {β : Behaviour μ} {b : BusId} {event : Event} {results : List DeliveryResult}

theorem World.selected_configured (hb : b < w.buses.length) (policy : ErrorPolicy)
    (discipline : Discipline) (event : Event) :
    (w.configured b policy discipline).selected b event = w.selected b event := by
  rw [selected, tableFor_configured hb, bus_configured hb]
  rfl

theorem exists_goes_selected (hhandlers : ∀ d ∈ w.selected b event, ∀ object,
      (β.handle d.invocation.subscription.body object).IsPlain)
    (hobservers : ∀ observer ∈ (w.bus b).observers, observer.IsPlain β) :
    ∃ results, (w.host b).Delivers β (w.selected b event) w.memory results := by
  refine exists_delivers hobservers (fun d hd => ⟨?_, hhandlers d hd⟩) w.memory
  obtain ⟨x, -, rfl⟩ := List.mem_map.mp hd
  rfl

theorem Host.Delivers.nodup_invocations {host : Host} {m : μ}
    (h : host.Delivers β (w.selected b event) m results) :
    (results.map fun x => x.delivery.invocation).Nodup := by
  have hmap := congrArg (List.map Delivery.invocation) h.map_delivery
  rw [List.map_map] at hmap
  exact hmap ▸ Outlook.nodup_deliveries

/-- The policy ends a post early on the publisher's thread. -/
theorem World.showsInPlace (hb : b < w.buses.length) (hfree : (w.bus b).locks.IsFree)
    (hdelivers : (w.host b).Delivers β (w.selected b event) w.memory results) (policy : ErrorPolicy) :
    w.ShowsInPlace β b event policy (cutAfter policy.cuts (results.flatMap (w.host b).lines)) := by
  intro n t
  have hbus : (w.configured b policy .publisher).bus b = _ := World.bus_configured hb
  obtain ⟨outcome, w', hpost, hcallbacks⟩ := exists_alone_post (w.hosts_configured hb hfree)
    (congrArg Bus.discipline hbus) ((w.selected_configured hb ..).symm ▸ hdelivers) ⟨n, t⟩
  have hpolicy : ((w.configured b policy .publisher).bus b).settings.policy = policy :=
    congrArg (fun bus : Bus => bus.settings.policy) hbus
  refine ⟨outcome, w', hpost, ?_⟩
  rw [cutAfter_lines policy (List.cons_ne_nil _ _) hdelivers.nodup_invocations, hcallbacks]
  exact hpolicy.symm ▸ rfl

theorem World.showsLater (hb : b < w.buses.length) (hfree : (w.bus b).locks.IsFree)
    (hdelivers : (w.host b).Delivers β (w.selected b event) w.memory results) (policy : ErrorPolicy)
    {e : ExecutorId} {manual : Manual} (he : w.executors[e]? = some (.manual manual))
    (hroom : manual.room = none) (hjobs : manual.jobs = []) :
    w.ShowsLater β b event policy e (results.flatMap (w.host b).lines) := by
  intro n t
  have hbus : (w.configured b policy (.executor e)).bus b = _ := World.bus_configured hb
  obtain ⟨w', hpost, hw', hcallbacks, he'⟩ := exists_alone_post_stored (w.hosts_configured hb hfree)
    (congrArg Bus.discipline hbus) he hroom (β.seated ⟨n, t⟩) t event
  refine ⟨w', hpost, hcallbacks, fun n' t' hlimit => ?_⟩
  -- The jobs run on a thread of their own, which takes a number first.
  have hnumbered : ({ w' with serial := w'.serial + 1 } : World μ).Hosts (w.host b) w.memory :=
    hw'.of_buses (by rfl) hw'.memory
  have hcompletes : (w.host b).Completes β (w.selected b event) { w' with serial := w'.serial + 1 }
      (w.callbacks ++ results.flatMap (w.host b).lines) :=
    ⟨w.memory, results, hnumbered, hdelivers, congrArg (· ++ _) hcallbacks.symm⟩
  have hstored : manual.jobs ++ ((w.configured b policy (.executor e)).selected b event).map manual.job =
      (w.selected b event).map (.delivery · manual.name) := by
    rw [hjobs, w.selected_configured hb]
    rfl
  obtain ⟨w'', hrun, hshown⟩ := hcompletes.exists_alone_runStored he' hstored
    ⟨n', .started w'.serial⟩ (Nat.lt_succ_of_le hlimit)
  exact ⟨w'', hrun, hshown⟩

/-- A post to an executor with an idle worker and an empty queue. -/
theorem relay_post {host : Host} {m : μ} {e : ExecutorId} (hw : w.Hosts host m)
    (hdiscipline : (w.bus host.bus).discipline = .executor e)
    (hdelivers : host.Delivers β (w.selected host.bus event) m results) (hstaffed : w.Staffed e [] .idle)
    (client : Client μ) (t : Thread) :
    Relay β host e (w.callbacks ++ results.flatMap host.lines)
      (.alone w (post client t host.bus event)) := by
  obtain ⟨bus, w', hselect, -, hsame, hw', hadds⟩ := exists_leads_selecting hw t event
  refine .selecting (congrArg (fun p => [p]) (post_eq client t host.bus event)) hselect
    (hands_delivering client t w.serial _ (hsame.trans hdiscipline)) hstaffed rfl
    ⟨m, results, hw', hdelivers, ?_⟩
  rw [hadds.callbacks, List.append_nil]

theorem World.showsMeanwhile (hb : b < w.buses.length) (hfree : (w.bus b).locks.IsFree)
    (hdelivers : (w.host b).Delivers β (w.selected b event) w.memory results) (policy : ErrorPolicy)
    {e : ExecutorId} (hstaffed : w.Staffed e [] .idle) :
    w.ShowsMeanwhile β b event policy e (results.flatMap (w.host b).lines) := by
  intro n t m hevolves
  have hbus : (w.configured b policy (.executor e)).bus b = _ := World.bus_configured hb
  have hpost : Relay β (w.host b) e (w.callbacks ++ results.flatMap (w.host b).lines)
      (.alone (w.configured b policy (.executor e)) (post (β.seated ⟨n, t⟩) t b event)) :=
    relay_post (w.hosts_configured hb hfree) (congrArg Bus.discipline hbus)
      ((w.selected_configured hb ..).symm ▸ hdelivers) (hstaffed.of_executors rfl) _ t
  have hrelay := hpost.of_evolves hevolves
  exact ⟨hrelay.isPrefix_callbacks, hrelay.callbacks_eq, hrelay.exists_hasRelayed⟩

end Agree

/-- An event is posted to plain handlers on a bus whose observers are plain, too, in the same state but
for the bus's policy and the place where it runs handlers. Let `J` be the calls of the handlers, one after
another, each followed by the reports of its failure. An executor that keeps the deliveries shows `J` when
it runs them. An executor with one worker shows `J` while the post goes on, whatever the order of turns. A
post on the publisher's thread shows `J` up to the first failure after which the policy stops. -/
theorem delivery_paths_agree {β : Behaviour μ} {w : World μ} {b : BusId} {event : Event}
    (hb : b < w.buses.length) (hfree : (w.bus b).locks.IsFree)
    (hhandlers : ∀ d ∈ w.selected b event, ∀ object,
      (β.handle d.invocation.subscription.body object).IsPlain)
    (hobservers : ∀ observer ∈ (w.bus b).observers, observer.IsPlain β) :
    ∃ results : List DeliveryResult, results.map DeliveryResult.delivery = w.selected b event ∧
      let J := results.flatMap (w.host b).lines
      (∀ policy, w.ShowsInPlace β b event policy (cutAfter policy.cuts J)) ∧
      (∀ policy e manual, w.executors[e]? = some (.manual manual) → manual.room = none →
        manual.jobs = [] → w.ShowsLater β b event policy e J) ∧
      ∀ policy e, w.Staffed e [] .idle → w.ShowsMeanwhile β b event policy e J := by
  obtain ⟨results, hdelivers⟩ := exists_goes_selected hhandlers hobservers
  refine ⟨results, hdelivers.map_delivery, ?_, ?_, ?_⟩
  · exact World.showsInPlace hb hfree hdelivers
  · exact fun policy e manual he hroom hjobs => World.showsLater hb hfree hdelivers policy he hroom hjobs
  · exact fun policy e hstaffed => World.showsMeanwhile hb hfree hdelivers policy hstaffed

/-- Of four handlers, which count their calls, the second and the fourth fail and the third panics. The
observer counts, too, and always panics. -/
theorem delivery_paths_agree_on_failures :
    let tick : Event := ⟨⟨"Tick", "Tick", 0⟩, 0, "tick"⟩
    let crew : Subscriber := ⟨⟨"Crew", 0⟩, "crew",
      [⟨"count", false, .one .root, ⟨0⟩⟩, ⟨"even", true, .one .root, ⟨1⟩⟩,
        ⟨"panic", false, .one .root, ⟨2⟩⟩, ⟨"odd", true, .one .root, ⟨1⟩⟩]⟩
    let β : Behaviour Nat := {
      handle body _ := .step (.memory (· + 1)) fun calls => .done <| match body.serial with
        | 0 => .fine
        | 1 => if calls % 2 = 0 then .fine else .failed (.text "odd")
        | _ => .panicked .other
      observe _ _ := .step (.memory (· + 1)) fun _ => .done (some .other)
      work _ := .done none }
    let bus : Bus := { Bus.fresh ⟨"front", .collect, [.custom "watch" "watch" ⟨0⟩]⟩ .publisher with
      roster := (Roster.empty.enrol crew.owner crew.subscriptions).getD .empty }
    let w : World Nat := { World.start 0 with
      buses := [bus]
      executors := [.pool "hand" (.start 1 none), .manual ⟨"yard", none, .rejected "yard" "full", []⟩] }
    ∃ results : List DeliveryResult, results.map DeliveryResult.delivery = w.selected 0 tick ∧
      let J := results.flatMap (w.host 0).lines
      J.length = 10 ∧ (cutAfter ErrorPolicy.collect.cuts J).length = 7 ∧
      (cutAfter ErrorPolicy.propagate.cuts J).length = 4 ∧
      w.ShowsInPlace β 0 tick .collect (cutAfter ErrorPolicy.collect.cuts J) ∧
      w.ShowsInPlace β 0 tick .propagate (cutAfter ErrorPolicy.propagate.cuts J) ∧
      w.ShowsMeanwhile β 0 tick .collect 0 J ∧ w.ShowsLater β 0 tick .collect 1 J := by
  intro tick crew β bus w
  have hobservers : ∀ observer ∈ (w.bus 0).observers, observer.IsPlain β := by
    intro observer hobserver
    cases observer with
    | log => trivial
    | custom => exact fun _ => .memory _ fun _ => .done _
  have hfree : (w.bus 0).locks.IsFree := fun _ => rfl
  have hopen : 0 < w.buses.length := by decide
  have hhandlers : ∀ d ∈ w.selected 0 tick, ∀ object,
      (β.handle d.invocation.subscription.body object).IsPlain := fun _ _ _ =>
    .memory _ fun _ => .done _
  obtain ⟨results, hresults, hinPlace, hlater, hmeanwhile⟩ :=
    delivery_paths_agree hopen hfree hhandlers hobservers
  have hstored := hlater .collect 1 _ rfl rfl rfl
  obtain ⟨w₁, hpost, -, hrest⟩ := hstored 4 .main
  obtain ⟨w₂, hrun, hall⟩ := hrest 4 .main (by decide)
  obtain ⟨_, w₃, hcollect, hcollected⟩ := hinPlace .collect 0 .main
  obtain ⟨_, w₄, hpropagate, hpropagated⟩ := hinPlace .propagate 0 .main
  refine ⟨results, hresults, ?_, ?_, ?_, hinPlace .collect, hinPlace .propagate,
    hmeanwhile .collect 0 ⟨rfl, rfl, by decide, rfl, rfl⟩, hstored⟩
  · have hlength : (((β.perform 6 .main (.post 0 tick)).alone
        (w.configured 0 .collect (.executor 1))).bind
        fun x => (β.perform 6 .main (.runAll 1)).alone x.2).any
          (fun x => x.2.callbacks.length = 10) = true := by
      decide +kernel
    rw [hpost, Option.bind_some, hrun, Option.any_some, hall] at hlength
    exact of_decide_eq_true hlength
  · have hlength : ((β.perform 2 .main (.post 0 tick)).alone (w.configured 0 .collect .publisher)).any
          (fun x => x.2.callbacks.length = 7) = true := by
      decide +kernel
    rw [hcollect, Option.any_some, hcollected] at hlength
    exact of_decide_eq_true hlength
  · have hlength : ((β.perform 2 .main (.post 0 tick)).alone (w.configured 0 .propagate .publisher)).any
          (fun x => x.2.callbacks.length = 4) = true := by
      decide +kernel
    rw [hpropagate, Option.any_some, hpropagated] at hlength
    exact of_decide_eq_true hlength

end PubSub
