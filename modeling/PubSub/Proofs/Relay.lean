import PubSub.Proofs.Handover
import PubSub.Proofs.Run
import Mathlib.Logic.Relation

/-!
# Deliveries by one worker

A post hands its deliveries to an executor with one worker, which makes them while the post goes on. In
every order of turns the worker makes them one after another, as they were handed over, and nothing that
the two threads do meanwhile changes what the deliveries show.
-/
namespace PubSub

open Program

variable {μ α : Type}

/-- The worker in this state of its program makes the world such, but for what the other thread does, when
it is done with the job that it has taken. -/
inductive Engaged (e : ExecutorId) (waiting : List Delivery) :
    World μ → Option (Proc μ Unit) → World μ → Prop where
  | idle {w : World μ} (staffed : w.Staffed e waiting .idle) : Engaged e waiting w none w
  | busy {w w' : World μ} {job : Job} {p : Proc μ (Option Payload)} {after : Option Payload → Proc μ Unit}
      (staffed : w.Staffed e waiting (.busy job)) (leads : p.Leads w none w')
      (concludes : after none = .step (.readExecutor e) fun _ => .done ()) :
      Engaged e waiting w (some (p.bind after)) w'
  | finished {w : World μ} {job : Job} (staffed : w.Staffed e waiting (.busy job)) :
      Engaged e waiting w (some (.done ())) w

/-- The turns in which a post or the worker of its executor goes on, or time passes. -/
def Turn.serves (e : ExecutorId) : Turn → Bool
  | .caller _ | .pass _ => true
  | .worker e' i => e' = e ∧ i = 0
  | .task _ => false

/-- What a machine can come to if nothing but a post and the worker of its executor goes on. -/
def Machine.Evolves (β : Behaviour μ) (depth : Nat) (e : ExecutorId) :
    Machine μ α → Machine μ α → Prop :=
  Relation.ReflTransGen fun m m' => ∃ t : Turn, t.serves e = true ∧ m.turn β depth t = some m'

section Worker

variable {β : Behaviour μ} {n : Nat} {e : ExecutorId} {d : Delivery} {ds todo : List Delivery}
  {v w w' : World μ} {m m' m'' : Machine μ α} {host : Host} {total : List Occurrence}

theorem Machine.Evolves.caller {i : Nat} (hturn : m.turn β n (.caller i) = some m')
    (h : m'.Evolves β n e m'') : m.Evolves β n e m'' := .head ⟨_, rfl, hturn⟩ h

theorem Machine.Evolves.worker (hturn : m.turn β n (.worker e 0) = some m')
    (h : m'.Evolves β n e m'') : m.Evolves β n e m'' :=
  .head ⟨.worker e 0, decide_eq_true ⟨rfl, rfl⟩, hturn⟩ h

theorem Engaged.exists_staffed {program? : Option (Proc μ Unit)} (h : Engaged e ds w program? w') :
    ∃ worker, worker ≠ .left ∧ w.Staffed e ds worker := by
  cases h with
  | idle staffed => exact ⟨_, by exact nofun, staffed⟩
  | busy staffed => exact ⟨_, by exact nofun, staffed⟩
  | finished staffed => exact ⟨_, by exact nofun, staffed⟩

/-- What leaves the worker alone does not disturb it. -/
theorem Engaged.of_matches {program? : Option (Proc μ Unit)} (h : Engaged e ds w program? w')
    (hv : v.Matches w) {worker : Worker Job} (hold : w.Staffed e ds worker) {ds' : List Delivery}
    (hnew : v.Staffed e ds' worker) : ∃ v', Engaged e ds' v program? v' ∧ v'.Matches w' := by
  cases h with
  | idle staffed => exact ⟨v, .idle (hold.worker_eq staffed ▸ hnew), hv⟩
  | busy staffed leads concludes =>
    obtain ⟨v', hleads, hv'⟩ := leads.exists_of_matches hv
    exact ⟨v', .busy (hold.worker_eq staffed ▸ hnew) hleads concludes, hv'⟩
  | finished staffed => exact ⟨v, .finished (hold.worker_eq staffed ▸ hnew), hv⟩

theorem Machine.turn_worker_step {i : Nat} {s : Step μ} {next : s.Reply → Proc μ Unit}
    (hprogram : m.workers.get? (e, i) = some (.step s next)) {reply : s.Reply}
    (hrun : s.run m.world = some (reply, w)) :
    m.turn β n (.worker e i) =
      some { m with world := w, workers := m.workers.insert (e, i) (next reply) } := by
  simp only [turn, hprogram, advance, hrun, Option.map_some]

theorem Machine.turn_worker_done {i : Nat} (hprogram : m.workers.get? (e, i) = some (.done ()))
    {p : Pool Job} (hfinish : (m.world.pool e).finish i = some p) :
    m.turn β n (.worker e i) =
      some { m with world := m.world.setPool e p, workers := m.workers.erase (e, i) } := by
  simp only [turn, hprogram, hfinish, Option.map_some]

theorem Machine.turn_worker_take {i : Nat} (hprogram : m.workers.get? (e, i) = none) {job : Job}
    {p : Pool Job} (htake : (m.world.pool e).take i = some (job, p)) :
    m.turn β (n + 1) (.worker e i) =
      some { m with
        world := m.world.setPool e p
        workers := m.workers.insert (e, i) (serve (β.seated ⟨n, .worker e i⟩) e i job) } := by
  simp only [turn, hprogram, begin, htake]
  rfl

/-- A worker that takes the delivery at the head of the queue is engaged in it. -/
theorem Engaged.exists_take (hstaffed : m.world.Staffed e (d :: ds) .idle)
    (hprogram : m.workers.get? (e, 0) = none)
    (hcompletes : host.Completes β (d :: ds ++ todo) m.world total) :
    ∃ m' w', m.turn β (n + 1) (.worker e 0) = some m' ∧ m'.callers = m.callers ∧
      Engaged e ds m'.world (m'.workers.get? (e, 0)) w' ∧ host.Completes β (ds ++ todo) w' total := by
  obtain ⟨name, p, htake, hstaffed'⟩ := hstaffed.exists_take
  have hcompletes' := hcompletes.of_matches (m.world.matches_setPool e p)
  obtain ⟨w', hleads, hrest⟩ := hcompletes'.exists_leads_runJob name ⟨n, .worker e 0⟩
  refine ⟨_, w', Machine.turn_worker_take hprogram htake, rfl, ?_, hrest⟩
  rw [Keyed.get?_insert_self]
  exact .busy hstaffed' hleads rfl

/-- Whenever the worker goes on, it is still on its way to what all deliveries make of the callbacks. -/
theorem Engaged.of_turn (h : Engaged e ds m.world (m.workers.get? (e, 0)) w)
    (hcompletes : host.Completes β (ds ++ todo) w total)
    (hturn : m.turn β (n + 1) (.worker e 0) = some m') :
    m'.callers = m.callers ∧ ∃ ds' w', Engaged e ds' m'.world (m'.workers.get? (e, 0)) w' ∧
      host.Completes β (ds' ++ todo) w' total := by
  generalize hprogram : m.workers.get? (e, 0) = program? at h
  generalize hworld : m.world = v at h
  cases h with
  | idle staffed =>
    subst hworld
    cases ds with
    | nil =>
      obtain ⟨htake, hleave⟩ := staffed.no_turn
      simp only [Machine.turn, hprogram, Machine.begin, htake, hleave] at hturn
      cases hturn
    | cons d ds =>
      obtain ⟨_, w', hturn', hcallers, hengaged, hrest⟩ :=
        Engaged.exists_take staffed hprogram hcompletes
      cases hturn.symm.trans hturn'
      exact ⟨hcallers, ds, w', hengaged, hrest⟩
  | @busy _ job p after staffed leads concludes =>
    cases leads with
    | done =>
      rw [done_bind, concludes] at hprogram
      subst hworld
      cases hturn.symm.trans (Machine.turn_worker_step hprogram rfl)
      refine ⟨rfl, ds, _, ?_, hcompletes⟩
      rw [Keyed.get?_insert_self]
      exact .finished staffed
    | step steady run rest =>
      rw [step_bind] at hprogram
      subst hworld
      cases hturn.symm.trans (Machine.turn_worker_step hprogram run)
      refine ⟨rfl, ds, w, ?_, hcompletes⟩
      rw [Keyed.get?_insert_self]
      exact .busy (staffed.of_executors (Step.executors_of_isSteady steady run)) rest concludes
  | finished staffed =>
    subst hworld
    obtain ⟨p, hfinish, staffed'⟩ := staffed.exists_finish
    cases hturn.symm.trans (Machine.turn_worker_done hprogram hfinish)
    refine ⟨rfl, ds, _, ?_, hcompletes.of_matches (m.world.matches_setPool e p)⟩
    rw [Keyed.get?_erase_self]
    exact .idle staffed'

/-- A worker that has done its job becomes idle. -/
theorem exists_idle_of_finished {job : Job} (hstaffed : m.world.Staffed e ds (.busy job))
    (hprogram : m.workers.get? (e, 0) = some (.done ())) :
    ∃ m', m.Evolves β n e m' ∧ m'.callers = m.callers ∧ m'.workers.get? (e, 0) = none ∧
      m'.world.Staffed e ds .idle ∧ m'.world.Matches m.world := by
  obtain ⟨p, hfinish, hstaffed'⟩ := hstaffed.exists_finish
  exact ⟨_, .worker (Machine.turn_worker_done hprogram hfinish) .refl, rfl, Keyed.get?_erase_self ..,
    hstaffed', m.world.matches_setPool e p⟩

/-- A worker comes to the end of its job. -/
theorem exists_idle_of_busy {p : Proc μ (Option Payload)} (hleads : p.Leads w none w')
    {after : Option Payload → Proc μ Unit}
    (hafter : after none = .step (.readExecutor e) fun _ => .done ()) {job : Job}
    (hworld : m.world = w) (hstaffed : w.Staffed e ds (.busy job))
    (hprogram : m.workers.get? (e, 0) = some (p.bind after)) :
    ∃ m', m.Evolves β n e m' ∧ m'.callers = m.callers ∧ m'.workers.get? (e, 0) = none ∧
      m'.world.Staffed e ds .idle ∧ m'.world.Matches w' := by
  generalize hanswer : none = answer at hleads
  induction hleads generalizing m with
  | done a w =>
    subst hanswer hworld
    rw [done_bind, hafter] at hprogram
    have hturn := Machine.turn_worker_step (β := β) (n := n) hprogram rfl
    obtain ⟨m', hevolves, hrest⟩ := exists_idle_of_finished (β := β) (n := n)
      (m := { m with workers := m.workers.insert (e, 0) (.done ()) }) hstaffed (Keyed.get?_insert_self ..)
    exact ⟨m', .worker hturn hevolves, hrest⟩
  | @step s next reply w w₁ w' a steady run rest ih =>
    subst hworld
    have hturn := Machine.turn_worker_step (β := β) (n := n) hprogram run
    obtain ⟨m', hevolves, hrest⟩ := ih
      (m := { m with world := w₁, workers := m.workers.insert (e, 0) ((next reply).bind after) }) rfl
      (hstaffed.of_executors (Step.executors_of_isSteady steady run)) (Keyed.get?_insert_self ..) hanswer
    exact ⟨m', .worker hturn hevolves, hrest⟩

theorem Engaged.exists_idle (h : Engaged e ds m.world (m.workers.get? (e, 0)) w) :
    ∃ m', m.Evolves β n e m' ∧ m'.callers = m.callers ∧ m'.workers.get? (e, 0) = none ∧
      m'.world.Staffed e ds .idle ∧ m'.world.Matches w := by
  generalize hprogram : m.workers.get? (e, 0) = program? at h
  generalize hworld : m.world = v at h
  cases h with
  | idle staffed => exact ⟨m, .refl, rfl, hprogram, hworld ▸ staffed, hworld ▸ .refl _⟩
  | busy staffed leads concludes => exact exists_idle_of_busy leads concludes hworld staffed hprogram
  | finished staffed =>
    subst hworld
    exact exists_idle_of_finished staffed hprogram

/-- The worker makes all deliveries that wait. -/
theorem Engaged.exists_drained (h : Engaged e ds m.world (m.workers.get? (e, 0)) w)
    (hcompletes : host.Completes β (ds ++ todo) w total) :
    ∃ m', m.Evolves β (n + 1) e m' ∧ m'.callers = m.callers ∧ m'.workers.get? (e, 0) = none ∧
      m'.world.Staffed e [] .idle ∧ host.Completes β todo m'.world total := by
  induction ds generalizing m w with
  | nil =>
    obtain ⟨m', hevolves, hcallers, hprogram, hstaffed, hmatches⟩ := h.exists_idle
    exact ⟨m', hevolves, hcallers, hprogram, hstaffed, hcompletes.of_matches hmatches⟩
  | cons d ds ih =>
    obtain ⟨m₁, hevolves, hcallers, hprogram, hstaffed, hmatches⟩ := h.exists_idle (β := β)
    obtain ⟨m₂, w₂, hturn, hcallers₂, hengaged, hrest⟩ :=
      Engaged.exists_take hstaffed hprogram (hcompletes.of_matches hmatches)
    obtain ⟨m', hevolves', hcallers', hidle⟩ := ih hengaged hrest
    exact ⟨m', hevolves.trans (Machine.Evolves.worker hturn hevolves'),
      hcallers'.trans (hcallers₂.trans hcallers), hidle⟩

end Worker

/-- A post selects its deliveries and then hands them to the worker. In the end the callbacks will be
these. -/
inductive Relay (β : Behaviour μ) (host : Host) (e : ExecutorId) (total : List Occurrence)
    (m : Machine μ Outcome) : Prop where
  | selecting {A : Type} {q : Proc μ A} {rest : A → Proc μ Outcome} {a : A} {w : World μ}
      {ds : List Delivery} (caller : m.callers = [q.bind rest]) (leads : q.Leads m.world a w)
      (hands : Hands e ds (rest a)) (staffed : m.world.Staffed e [] .idle)
      (unoccupied : m.workers.get? (e, 0) = none) (completes : host.Completes β ds w total) :
      Relay β host e total m
  | handing {p : Proc μ Outcome} {ds todo : List Delivery} {w : World μ} (caller : m.callers = [p])
      (hands : Hands e todo p) (engaged : Engaged e ds m.world (m.workers.get? (e, 0)) w)
      (completes : host.Completes β (ds ++ todo) w total) : Relay β host e total m

/-- The post is over, and the executor is at rest. -/
structure Machine.HasRelayed (m : Machine μ Outcome) (e : ExecutorId) : Prop where
  results : m.results = [some .ok]
  rest : (m.world.pool e).isAtRest (fun _ => true) = true

section Relay

variable {β : Behaviour μ} {n : Nat} {host : Host} {e : ExecutorId} {total : List Occurrence}
  {m m' : Machine μ Outcome}

theorem Machine.turn_caller_step {s : Step μ} {next : s.Reply → Proc μ Outcome}
    (hcaller : m.callers = [.step s next]) {reply : s.Reply} {w : World μ}
    (hrun : s.run m.world = some (reply, w)) :
    m.turn β n (.caller 0) = some { m with world := w, callers := [next reply] } := by
  simp only [turn, hcaller, List.getElem?_cons_zero, advance, hrun, Option.map_some, List.set_cons_zero]

/-- A caller that goes on is the only one, and takes a step. -/
theorem Machine.exists_step_of_caller {i : Nat} {p : Proc μ Outcome} (hcaller : m.callers = [p])
    (hturn : m.turn β n (.caller i) = some m') :
    ∃ (s : Step μ) (next : s.Reply → Proc μ Outcome) (reply : s.Reply) (w : World μ),
      p = .step s next ∧ s.run m.world = some (reply, w) ∧
        m' = { m with world := w, callers := [next reply] } := by
  cases i with
  | succ i =>
    rw [turn, hcaller] at hturn
    cases hturn
  | zero =>
    rw [turn, hcaller] at hturn
    obtain ⟨⟨p', w⟩, hadvance, rfl⟩ := Option.map_eq_some_iff.mp hturn
    obtain ⟨s, next, reply, rfl, hrun, rfl⟩ := advance_eq_some hadvance
    exact ⟨s, next, reply, w, rfl, hrun, rfl⟩

/-- A step of a post that hands over its deliveries. -/
theorem Relay.of_handing {p : Proc μ Outcome} {ds todo : List Delivery} {w : World μ} {i : Nat}
    (hcaller : m.callers = [p]) (hhands : Hands e todo p)
    (hengaged : Engaged e ds m.world (m.workers.get? (e, 0)) w)
    (hcompletes : host.Completes β (ds ++ todo) w total)
    (hturn : m.turn β n (.caller i) = some m') : Relay β host e total m' := by
  obtain ⟨s, next, reply, w₁, rfl, hrun, rfl⟩ := Machine.exists_step_of_caller hcaller hturn
  obtain ⟨worker, hworker, hstaffed⟩ := hengaged.exists_staffed
  obtain ⟨hmatches, sent, rest, rfl, hnext, hstaffed'⟩ := hhands.of_step hrun hstaffed hworker
  obtain ⟨w', hengaged', hmatches'⟩ := hengaged.of_matches hmatches hstaffed hstaffed'
  refine .handing rfl hnext hengaged' ?_
  rw [List.append_assoc]
  exact hcompletes.of_matches hmatches'

/-- A step of a post that selects its deliveries. -/
theorem Relay.of_selecting {A : Type} {q : Proc μ A} {rest : A → Proc μ Outcome} {a : A} {w : World μ}
    {ds : List Delivery} {i : Nat} (hcaller : m.callers = [q.bind rest]) (hleads : q.Leads m.world a w)
    (hhands : Hands e ds (rest a)) (hstaffed : m.world.Staffed e [] .idle)
    (hunoccupied : m.workers.get? (e, 0) = none) (hcompletes : host.Completes β ds w total)
    (hturn : m.turn β n (.caller i) = some m') : Relay β host e total m' := by
  generalize hworld : m.world = v at hleads
  cases hleads with
  | done =>
    subst hworld
    have hengaged : Engaged e [] m.world (m.workers.get? (e, 0)) m.world := by
      rw [hunoccupied]
      exact .idle hstaffed
    exact .of_handing hcaller hhands hengaged hcompletes hturn
  | step steady run leads =>
    subst hworld
    obtain ⟨s, next, reply, w₁, heq, hrun, rfl⟩ := Machine.exists_step_of_caller hcaller hturn
    cases heq
    cases run.symm.trans hrun
    exact .selecting rfl leads hhands
      (hstaffed.of_executors (Step.executors_of_isSteady steady run)) hunoccupied hcompletes

theorem Relay.of_worker (h : Relay β host e total m)
    (hturn : m.turn β (n + 1) (.worker e 0) = some m') : Relay β host e total m' := by
  cases h with
  | selecting caller leads hands staffed unoccupied completes =>
    obtain ⟨htake, hleave⟩ := staffed.no_turn
    simp only [Machine.turn, unoccupied, Machine.begin, htake, hleave] at hturn
    cases hturn
  | handing caller hands engaged completes =>
    obtain ⟨hcallers, ds, w, hengaged, hcompletes⟩ := engaged.of_turn completes hturn
    exact .handing (hcallers.trans caller) hands hengaged hcompletes

theorem Relay.of_pass (h : Relay β host e total m) {milliseconds : Nat}
    (hturn : m.turn β n (.pass milliseconds) = some m') : Relay β host e total m' := by
  cases hturn
  have hmatches := m.world.matches_with m.world.executors (m.world.time + milliseconds)
  cases h with
  | selecting caller leads hands staffed unoccupied completes =>
    obtain ⟨w', hleads, hw'⟩ := leads.exists_of_matches hmatches
    exact .selecting caller hleads hands (staffed.of_executors rfl) unoccupied (completes.of_matches hw')
  | handing caller hands engaged completes =>
    obtain ⟨worker, -, hstaffed⟩ := engaged.exists_staffed
    obtain ⟨w', hengaged, hw'⟩ :=
      engaged.of_matches hmatches hstaffed (hstaffed.of_executors (v := { m.world with
        time := m.world.time + milliseconds }) rfl)
    exact .handing caller hands hengaged (completes.of_matches hw')

theorem Relay.of_turn (h : Relay β host e total m) {t : Turn} (ht : t.serves e = true)
    (hturn : m.turn β (n + 1) t = some m') : Relay β host e total m' := by
  cases t with
  | caller i =>
    cases h with
    | selecting caller leads hands staffed unoccupied completes =>
      exact .of_selecting caller leads hands staffed unoccupied completes hturn
    | handing caller hands engaged completes => exact .of_handing caller hands engaged completes hturn
  | task n => cases ht
  | worker e' i =>
    obtain ⟨rfl, rfl⟩ := of_decide_eq_true ht
    exact h.of_worker hturn
  | pass milliseconds => exact h.of_pass hturn

theorem Relay.of_evolves (h : Relay β host e total m) (hevolves : m.Evolves β (n + 1) e m') :
    Relay β host e total m' := by
  induction hevolves with
  | refl => exact h
  | tail _ hturn ih =>
    obtain ⟨t, ht, hturn⟩ := hturn
    exact ih.of_turn ht hturn

/-- At no time has anything else been called or reported than what will be in the end. -/
theorem Relay.isPrefix_callbacks (h : Relay β host e total m) : m.world.callbacks <+: total := by
  cases h with
  | selecting caller leads hands staffed unoccupied completes =>
    exact leads.isPrefix_callbacks.trans completes.isPrefix_callbacks
  | handing caller hands engaged completes =>
    generalize m.workers.get? (e, 0) = program? at engaged
    cases engaged with
    | busy staffed leads concludes => exact leads.isPrefix_callbacks.trans completes.isPrefix_callbacks
    | _ => exact completes.isPrefix_callbacks

theorem Machine.HasRelayed.caller_eq (hover : m.HasRelayed e) {p : Proc μ Outcome}
    (hcaller : m.callers = [p]) : p = .done .ok := by
  have hresults := hover.results
  rw [Machine.results, hcaller] at hresults
  cases p with
  | done outcome => cases hresults; rfl
  | _ => cases hresults

/-- Once the post is over and the executor is at rest, all of it has been. -/
theorem Relay.callbacks_eq (h : Relay β host e total m) (hover : m.HasRelayed e) :
    m.world.callbacks = total := by
  cases h with
  | selecting caller leads hands staffed unoccupied completes =>
    have hdone := hover.caller_eq caller
    generalize m.world = v at leads
    cases leads with
    | done =>
      rw [done_bind] at hdone
      rw [hdone] at hands
      cases hands
      exact completes.callbacks_eq
    | step => cases hdone
  | handing caller hands engaged completes =>
    cases hover.caller_eq caller
    cases hands
    have hrest := hover.rest
    generalize m.workers.get? (e, 0) = program? at engaged
    generalize m.world = v at engaged hrest
    cases engaged with
    | idle staffed =>
      obtain ⟨rfl, -⟩ := staffed.isAtRest_iff.mp hrest
      exact completes.callbacks_eq
    | busy staffed => exact absurd rfl ((staffed.isAtRest_iff.mp hrest).2 _)
    | finished staffed => exact absurd rfl ((staffed.isAtRest_iff.mp hrest).2 _)

/-- A post that hands over its deliveries comes to its end, and so do the deliveries. -/
theorem Hands.exists_hasRelayed {p : Proc μ Outcome} {ds todo : List Delivery} {w : World μ}
    (hcaller : m.callers = [p]) (hhands : Hands e todo p)
    (hengaged : Engaged e ds m.world (m.workers.get? (e, 0)) w)
    (hcompletes : host.Completes β (ds ++ todo) w total) :
    ∃ m', m.Evolves β (n + 1) e m' ∧ m'.HasRelayed e := by
  induction p generalizing m ds todo w with
  | never => cases hhands
  | done outcome =>
    obtain ⟨m', hevolves, hcallers, -, hstaffed, -⟩ := hengaged.exists_drained hcompletes
    cases hhands
    refine ⟨m', hevolves, ?_, hstaffed.isAtRest_iff.mpr ⟨rfl, nofun⟩⟩
    rw [Machine.results, hcallers, hcaller]
    rfl
  | step s next ih =>
    -- The worker makes room first, for the executor may be full.
    obtain ⟨m₁, hevolves, hcallers, hunoccupied, hstaffed, hrest⟩ := hengaged.exists_drained hcompletes
    obtain ⟨reply, w₂, hrun⟩ := hhands.exists_run hstaffed
    have hcaller₁ := hcallers.trans hcaller
    have hturn := Machine.turn_caller_step (β := β) (n := n + 1) hcaller₁ hrun
    obtain ⟨hmatches, sent, todo, rfl, hnext, hstaffed₂⟩ := hhands.of_step hrun hstaffed nofun
    have hengaged₂ : Engaged e sent w₂ (m₁.workers.get? (e, 0)) w₂ := by
      rw [hunoccupied]
      exact .idle hstaffed₂
    obtain ⟨m', hevolves', hover⟩ := ih reply (m := { m₁ with world := w₂, callers := [next reply] })
      rfl hnext hengaged₂ (hrest.of_matches hmatches)
    exact ⟨m', hevolves.trans (Machine.Evolves.caller hturn hevolves'), hover⟩

/-- A post that selects its deliveries goes on to hand them over. -/
theorem Hands.exists_hasRelayed_of_leads {A : Type} {q : Proc μ A} {rest : A → Proc μ Outcome} {a : A}
    {w w' : World μ} {ds : List Delivery} (hleads : q.Leads w a w') (hhands : Hands e ds (rest a))
    (hworld : m.world = w) (hcaller : m.callers = [q.bind rest]) (hstaffed : w.Staffed e [] .idle)
    (hunoccupied : m.workers.get? (e, 0) = none) (hcompletes : host.Completes β ds w' total) :
    ∃ m', m.Evolves β (n + 1) e m' ∧ m'.HasRelayed e := by
  induction hleads generalizing m with
  | done a w =>
    subst hworld
    have hengaged : Engaged e [] m.world (m.workers.get? (e, 0)) m.world := by
      rw [hunoccupied]
      exact .idle hstaffed
    exact hhands.exists_hasRelayed hcaller hengaged hcompletes
  | @step s next reply w w₁ w' a steady run _ ih =>
    subst hworld
    have hturn := Machine.turn_caller_step (β := β) (n := n + 1) hcaller run
    obtain ⟨m', hevolves, hover⟩ := ih hhands
      (m := { m with world := w₁, callers := [(next reply).bind rest] }) rfl rfl
      (hstaffed.of_executors (Step.executors_of_isSteady steady run)) hunoccupied hcompletes
    exact ⟨m', .caller hturn hevolves, hover⟩

/-- In any case it comes to that. -/
theorem Relay.exists_hasRelayed (h : Relay β host e total m) :
    ∃ m', m.Evolves β (n + 1) e m' ∧ m'.HasRelayed e := by
  cases h with
  | handing caller hands engaged completes => exact hands.exists_hasRelayed caller engaged completes
  | selecting caller leads hands staffed unoccupied completes =>
    exact hands.exists_hasRelayed_of_leads leads rfl caller staffed unoccupied completes

end Relay

end PubSub
