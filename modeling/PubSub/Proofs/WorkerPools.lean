import PubSub.Proofs.Ledger
import PubSub.Proofs.Relay

/-!
# Worker pools lose no job

Each job that a pool has accepted waits in its queue, is being run by one of its workers, or has been
run to its end, and it is started once, in its turn. Workers leave only when nothing can come any
more, whatever their jobs do. So a submission is either accepted for good or rejected because the
pool has been shut down.
-/
namespace PubSub

open Program

variable {μ α : Type} {β : Behaviour μ} {depth : Nat} {memory : μ} {body : Body μ α}
  {trace later : Trace μ} {m m' : Machine μ α} {e : ExecutorId} {t : Turn}

/-- What becomes of one worker of an executor in a turn. -/
inductive Machine.WorkerChange (e : ExecutorId) (i : Nat) (m m' : Machine μ α) (t : Turn)
    (deeds : List (Deed μ)) : Prop where
  | same (worker : (m'.world.pool e).workers[i]? = (m.world.pool e).workers[i]?)
      (elsewhere : t = .worker e i → ∀ job, .took job ∉ deeds)
  | starts {job : Job} (turn : t = .worker e i) (took : deeds = [.took job])
      (idle : (m.world.pool e).workers[i]? = some .idle)
      (busy : (m'.world.pool e).workers[i]? = some (.busy job))
  | ends {job : Job} (turn : t = .worker e i) (quiet : deeds = [])
      (busy : (m.world.pool e).workers[i]? = some (.busy job))
      (complete : m.workers.get? (e, i) = some (.done ()))
      (idle : (m'.world.pool e).workers[i]? = some .idle)
  | leaves (turn : t = .worker e i) (quiet : deeds = [])
      (idle : (m.world.pool e).workers[i]? = some .idle) (queue : (m.world.pool e).queue = [])
      (accepting : (m.world.pool e).accepting = false) (borrowed : (m.world.pool e).borrowed = 0)
      (left : (m'.world.pool e).workers[i]? = some .left)

/-- A worker of an executor that changes leaves all others as they are. -/
theorem World.getElem?_workers_setPool {w : World μ} {p q : Pool Job} {e' : ExecutorId} {j : Nat}
    {worker worker' : Worker Job} (hpool : (w.executor e).pool? = some p)
    (hwas : (w.pool e').workers[j]? = some worker)
    (hworkers : q.workers = (w.pool e').workers.set j worker') (i : Nat) :
    ((w.setPool e' q).pool e).workers[i]? =
      if e' = e ∧ i = j then some worker' else (w.pool e).workers[i]? := by
  rw [World.pool_of_pool? (World.pool?_setPool hpool e' q), World.pool_of_pool? hpool]
  by_cases he : e' = e
  · subst he
    rw [if_pos rfl, hworkers, Pool.getElem?_set_workers hwas, World.pool_of_pool? hpool]
    simp only [true_and]
  · rw [if_neg he, if_neg fun h => he h.1]

theorem Machine.PoolTurn.workerChange {deeds : List (Deed μ)} (h : Machine.PoolTurn β depth m m' t deeds)
    {p : Pool Job} (hpool : (m.world.executor e).pool? = some p) (i : Nat) :
    Machine.WorkerChange e i m m' t deeds := by
  cases h with
  | @step _ s next reply program world workers =>
    refine .same ?_ ?_
    · rw [World.pool_of_pool? (Step.pool?_run world hpool), World.pool_of_pool? hpool,
        Deed.workers_onPool]
    · intro _ job hjob
      cases List.mem_singleton.mp hjob
  | @take e' j job q idle take world workers =>
    obtain ⟨rest, hidle, hqueue, hq⟩ := Pool.take_eq_some take
    have hafter := World.getElem?_workers_setPool hpool hidle (congrArg Pool.workers hq) i
    rw [← world] at hafter
    by_cases hself : e' = e ∧ i = j
    · obtain ⟨rfl, rfl⟩ := hself
      exact .starts rfl rfl hidle (hafter.trans (if_pos ⟨rfl, rfl⟩))
    · refine .same (hafter.trans (if_neg hself)) ?_
      rintro ⟨⟩
      exact absurd ⟨rfl, rfl⟩ hself
  | @finish e' j q complete finish world workers =>
    obtain ⟨job, hbusy, hq⟩ := Pool.finish_eq_some finish
    have hafter := World.getElem?_workers_setPool hpool hbusy (congrArg Pool.workers hq) i
    rw [← world] at hafter
    by_cases hself : e' = e ∧ i = j
    · obtain ⟨rfl, rfl⟩ := hself
      exact .ends rfl rfl hbusy complete (hafter.trans (if_pos ⟨rfl, rfl⟩))
    · exact .same (hafter.trans (if_neg hself)) fun _ _ => nofun
  | @leave e' j q idle leave world workers =>
    obtain ⟨hidle, hqueue, hclosed, hborrowed, hq⟩ := Pool.leave_eq_some leave
    have hafter := World.getElem?_workers_setPool hpool hidle (congrArg Pool.workers hq) i
    rw [← world] at hafter
    by_cases hself : e' = e ∧ i = j
    · obtain ⟨rfl, rfl⟩ := hself
      exact .leaves rfl rfl hidle hqueue hclosed hborrowed (hafter.trans (if_pos ⟨rfl, rfl⟩))
    · exact .same (hafter.trans (if_neg hself)) fun _ _ => nofun
  | aside quiet executors workers =>
    refine .same ?_ ?_
    · rw [World.pool_of_pool? ((Step.pool?_of_executors executors).trans hpool),
        World.pool_of_pool? hpool]
    · intro _ job hjob
      rcases quiet with rfl | rfl
      · cases hjob
      · cases List.mem_singleton.mp hjob

/-- A worker is at work on the job that the executor accepted after `k` others. -/
structure Running (e : ExecutorId) (trace : Trace μ) (m : Machine μ α) (k i : Nat) (job : Job) :
    Prop where
  started : (trace.started e)[k]? = some (i, job)
  latest : ∀ k' job', (trace.started e)[k']? = some (i, job') → k' ≤ k
  busy : (m.world.pool e).workers[i]? = some (.busy job)
  occupied : (m.workers.get? (e, i)).isSome = true

/-- At some moment of the run the worker had done all that this job asks for. -/
def CameToEnd (β : Behaviour μ) (depth : Nat) (memory : μ) (body : Body μ α) (e : ExecutorId)
    (trace : Trace μ) (m : Machine μ α) (k i : Nat) (job : Job) : Prop :=
  ∃ earlier later m₀, trace = later ++ earlier ∧ Run β depth memory body earlier m₀ ∧
    m₀.Course β depth later m ∧ Running e earlier m₀ k i job ∧
      m₀.workers.get? (e, i) = some (.done ())

inductive Stage where
  | queued (place : Nat)
  | running (worker : Nat)
  | finished (worker : Nat)
deriving DecidableEq

/-- How far the job has got that the executor accepted after `k` others. -/
inductive AtStage (β : Behaviour μ) (depth : Nat) (memory : μ) (body : Body μ α) (e : ExecutorId)
    (trace : Trace μ) (m : Machine μ α) (k : Nat) (job : Job) : Stage → Prop where
  | queued {place : Nat} (behind : k = (trace.started e).length + place)
      (waits : (m.world.pool e).queue[place]? = some job) :
      AtStage β depth memory body e trace m k job (.queued place)
  | running {i : Nat} (running : Running e trace m k i job) :
      AtStage β depth memory body e trace m k job (.running i)
  | finished {i : Nat} (started : (trace.started e)[k]? = some (i, job))
      (ended : CameToEnd β depth memory body e trace m k i job) (gone : ¬Running e trace m k i job) :
      AtStage β depth memory body e trace m k job (.finished i)

namespace Running

variable {k i : Nat} {job : Job}

/-- Nobody else gets in the way of a worker and its job. -/
theorem of_poolTurn {deeds : List (Deed μ)} (h : Running e trace m k i job)
    (hturn : Machine.PoolTurn β depth m m' t deeds) {p : Pool Job}
    (hpool : (m.world.executor e).pool? = some p)
    (hledger : ∀ p', (m'.world.executor e).pool? = some p' →
      Ledger e (deeds.map (t, ·) ++ trace) m' p') :
    Running e (deeds.map (t, ·) ++ trace) m' k i job ∨ m.workers.get? (e, i) = some (.done ()) := by
  have hbusy := h.busy
  cases hturn.workerChange hpool i with
  | starts _ _ idle => rw [hbusy] at idle; cases idle
  | ends _ _ _ complete => exact .inr complete
  | leaves _ _ idle => rw [hbusy] at idle; cases idle
  | same worker elsewhere =>
    refine .inl ⟨?_, ?_, worker.trans hbusy, ?_⟩
    · rw [Trace.started_append, List.getElem?_append_left (List.getElem?_eq_some_iff.mp h.started).1]
      exact h.started
    · intro k' job' hk'
      rw [Trace.started_append] at hk'
      by_cases hlt : k' < (trace.started e).length
      · rw [List.getElem?_append_left hlt] at hk'
        exact h.latest k' job' hk'
      · have hmem := List.mem_of_getElem?
          ((List.getElem?_append_right (Nat.le_of_not_lt hlt)).symm.trans hk')
        obtain ⟨deed, hdeed, heq⟩ := List.mem_map.mp ((Trace.mem_started ..).mp hmem)
        cases heq
        exact absurd hdeed (elsewhere rfl job')
    · obtain ⟨p', hpool'⟩ := hturn.exists_pool hpool
      refine ((hledger p' hpool').busy i).mpr ⟨job, ?_⟩
      rw [← World.pool_of_pool? hpool', worker, hbusy]

/-- A job that a worker starts is run by it from now on. -/
theorem of_starts {p' : Pool Job} (hpool' : (m'.world.executor e).pool? = some p')
    (hledger : Ledger e ((.worker e i, .took job) :: trace) m' p')
    (hbusy : (m'.world.pool e).workers[i]? = some (.busy job)) :
    Running e ((.worker e i, .took job) :: trace) m' (trace.started e).length i job := by
  have hstarted : Trace.started (((.worker e i, .took job) :: trace : Trace μ)) e =
      trace.started e ++ [(i, job)] := by
    rw [← List.singleton_append, Trace.started_append, Trace.started_singleton, Deed.started?,
      if_pos rfl]
    rfl
  refine ⟨?_, ?_, hbusy, ?_⟩
  · rw [hstarted, List.getElem?_concat_length]
  · intro k' job' hk'
    have hlt := (List.getElem?_eq_some_iff.mp hk').1
    rw [hstarted, List.length_append, List.length_singleton] at hlt
    exact Nat.le_of_lt_succ hlt
  · refine (hledger.busy i).mpr ⟨job, ?_⟩
    rw [← World.pool_of_pool? hpool', hbusy]

end Running

theorem Run.ledger_of_pool? (h : Run β depth memory body trace m) {p : Pool Job}
    (hpool : (m.world.executor e).pool? = some p) : Ledger e trace m p := by
  rcases h.ledger e with ⟨q, hq, hledger⟩ | ⟨hnone, -⟩
  · cases hpool.symm.trans hq
    exact hledger
  · cases hpool.symm.trans hnone

theorem CameToEnd.turn {k i : Nat} {job : Job} (h : CameToEnd β depth memory body e trace m k i job)
    (hmoved : m.turn β depth t = some m') :
    CameToEnd β depth memory body e ((m.deeds t).map (t, ·) ++ trace) m' k i job := by
  obtain ⟨earlier, later, m₀, rfl, hrun, hcourse, hrunning, hover⟩ := h
  exact ⟨earlier, _, m₀, (List.append_assoc ..).symm, hrun, hcourse.turn hmoved, hrunning, hover⟩

/-- A job that is started in a turn is the last so far, and its worker was idle. -/
theorem Machine.PoolTurn.started_now {deeds : List (Deed μ)} {p : Pool Job}
    (h : Machine.PoolTurn β depth m m' t deeds) (hpool : (m.world.executor e).pool? = some p) {k i : Nat}
    {job : Job} (hnew : (trace.started e).length ≤ k)
    (hstarted : (Trace.started (deeds.map (t, ·) ++ trace) e)[k]? = some (i, job)) :
    t = .worker e i ∧ deeds = [.took job] ∧ k = (trace.started e).length ∧
      (m'.world.pool e).workers[i]? = some (.busy job) := by
  rw [Trace.started_append, List.getElem?_append_right hnew] at hstarted
  obtain ⟨deed, hdeed, heq⟩ :=
    List.mem_map.mp ((Trace.mem_started ..).mp (List.mem_of_getElem? hstarted))
  cases heq
  cases h.workerChange hpool i with
  | same _ elsewhere => exact absurd hdeed (elsewhere rfl job)
  | ends _ quiet => rw [quiet] at hdeed; cases hdeed
  | leaves _ quiet => rw [quiet] at hdeed; cases hdeed
  | starts _ took _ busy =>
    rw [took] at hdeed
    cases List.mem_singleton.mp hdeed
    refine ⟨rfl, took, ?_, busy⟩
    have hlt := (List.getElem?_eq_some_iff.mp hstarted).1
    rw [took, List.map_singleton, Trace.started_singleton, Deed.started?, if_pos rfl] at hlt
    exact Nat.le_antisymm (Nat.le_of_sub_eq_zero (Nat.lt_one_iff.mp hlt)) hnew

/-- An executor without workers starts nothing. -/
theorem Machine.PoolTurn.started_eq_nil {deeds : List (Deed μ)}
    (h : Machine.PoolTurn β depth m m' t deeds)
    (hpool : (m.world.executor e).pool? = none) : Trace.started (deeds.map (t, ·)) e = [] := by
  rw [List.eq_nil_iff_forall_not_mem]
  rintro ⟨i, job⟩ hmem
  obtain ⟨deed, hdeed, heq⟩ := List.mem_map.mp ((Trace.mem_started ..).mp hmem)
  cases heq
  cases h with
  | step => cases List.mem_singleton.mp hdeed
  | take _ take => cases (Unstaffed.no_turn hpool).1.symm.trans take
  | finish => cases hdeed
  | leave => cases hdeed
  | aside quiet =>
    rcases quiet with rfl | rfl
    · cases hdeed
    · cases List.mem_singleton.mp hdeed

/-- A job that has been started is being run until it comes to its end. -/
theorem Run.running_or_cameToEnd (h : Run β depth memory body trace m) {k i : Nat} {job : Job}
    (hstarted : (trace.started e)[k]? = some (i, job)) :
    Running e trace m k i job ∨ CameToEnd β depth memory body e trace m k i job := by
  induction h with
  | start => cases hstarted
  | @turn trace m m' t before moved ih =>
    have hturn := Machine.poolTurn moved
    have hledger : ∀ p', (m'.world.executor e).pool? = some p' → Ledger e _ m' p' :=
      fun p' hp' => (before.turn moved).ledger_of_pool? hp'
    rcases before.ledger e with ⟨p, hpool, -⟩ | ⟨hnone, hunstaffed⟩
    · by_cases hold : k < (trace.started e).length
      · rw [Trace.started_append, List.getElem?_append_left hold] at hstarted
        rcases ih hstarted with hrunning | hended
        · rcases hrunning.of_poolTurn hturn hpool hledger with hrunning' | hover
          · exact .inl hrunning'
          · exact .inr (CameToEnd.turn ⟨trace, [], m, rfl, before, .now, hrunning, hover⟩ moved)
        · exact .inr (hended.turn moved)
      · obtain ⟨rfl, hdeeds, rfl, hbusy⟩ :=
          hturn.started_now hpool (Nat.le_of_not_lt hold) hstarted
        obtain ⟨p', hpool'⟩ := hturn.exists_pool hpool
        have hledger' := hledger p' hpool'
        rw [hdeeds] at hledger' ⊢
        exact .inl (.of_starts hpool' hledger' hbusy)
    · rw [Trace.started_append, hunstaffed.started, hturn.started_eq_nil hnone] at hstarted
      cases hstarted

/-- The jobs that have been accepted are those that have been started, followed by the queue. -/
theorem Run.getElem?_accepted (h : Run β depth memory body trace m) {p : Pool Job}
    (hpool : (m.world.executor e).pool? = some p) (k : Nat) :
    (trace.accepted e)[k]? = if k < (trace.started e).length then
      (trace.started e)[k]?.map Prod.snd else p.queue[k - (trace.started e).length]? := by
  rw [(h.ledger_of_pool? hpool).order]
  split
  · rename_i hlt
    rw [List.getElem?_append_left (by rwa [List.length_map]), List.getElem?_map]
  · rename_i hge
    rw [List.getElem?_append_right (by rw [List.length_map]; omega), List.length_map]

theorem Run.existsUnique_atStage (h : Run β depth memory body trace m) {p : Pool Job}
    (hpool : (m.world.executor e).pool? = some p) {k : Nat} {job : Job}
    (haccepted : (trace.accepted e)[k]? = some job) :
    ∃! stage, AtStage β depth memory body e trace m k job stage := by
  have hsame := World.pool_of_pool? hpool
  rw [h.getElem?_accepted hpool] at haccepted
  split at haccepted
  · rename_i hlt
    obtain ⟨⟨i, job'⟩, hstarted, rfl⟩ := Option.map_eq_some_iff.mp haccepted
    have hworker : ∀ {i' job''}, (trace.started e)[k]? = some (i', job'') → i' = i := by
      intro i' job'' hi'
      cases hi'.symm.trans hstarted
      rfl
    by_cases hrunning : Running e trace m k i job'
    · refine ⟨.running i, .running hrunning, ?_⟩
      rintro _ (⟨behind, _⟩ | hrunning' | ⟨started, _, gone⟩)
      · omega
      · rw [hworker hrunning'.started]
      · exact absurd (hworker started ▸ hrunning) gone
    · have hended := (h.running_or_cameToEnd hstarted).resolve_left hrunning
      refine ⟨.finished i, .finished hstarted hended hrunning, ?_⟩
      rintro _ (⟨behind, _⟩ | hrunning' | ⟨started, _, _⟩)
      · omega
      · exact absurd (hworker hrunning'.started ▸ hrunning') hrunning
      · rw [hworker started]
  · rename_i hge
    have hnone : ∀ {i' job''}, (trace.started e)[k]? ≠ some (i', job'') := by
      intro i' job'' hi'
      exact hge (List.getElem?_eq_some_iff.mp hi').1
    refine ⟨.queued (k - (trace.started e).length), .queued (by omega) (hsame ▸ haccepted), ?_⟩
    rintro _ (⟨behind, _⟩ | hrunning' | ⟨started, _, _⟩)
    · rw [behind, Nat.add_sub_cancel_left]
    · exact absurd hrunning'.started hnone
    · exact absurd started hnone

/-- A pool of workers stays one. -/
theorem Machine.Course.exists_pool (h : m.Course β depth later m') {p : Pool Job}
    (hpool : (m.world.executor e).pool? = some p) : ∃ p', (m'.world.executor e).pool? = some p' := by
  induction h with
  | now => exact ⟨p, hpool⟩
  | turn _ moved ih =>
    obtain ⟨p', hpool'⟩ := ih
    exact (Machine.poolTurn moved).exists_pool hpool'

/-- A worker that has left does not come back. -/
theorem Machine.Course.left (h : m.Course β depth later m') {p : Pool Job}
    (hpool : (m.world.executor e).pool? = some p) {i : Nat}
    (hleft : (m.world.pool e).workers[i]? = some .left) :
    (m'.world.pool e).workers[i]? = some .left := by
  induction h with
  | now => exact hleft
  | turn before moved ih =>
    obtain ⟨q, hq⟩ := before.exists_pool hpool
    cases (Machine.poolTurn moved).workerChange hq i with
    | same worker => exact worker.trans ih
    | starts _ _ idle => cases idle.symm.trans ih
    | ends _ _ busy => cases busy.symm.trans ih
    | leaves _ _ _ _ _ _ left => exact left

/-- What a turn makes of the pool of an executor: what a step does, or else nothing but a change of the
queue and of what the workers do. -/
theorem Machine.PoolTurn.onPool {deeds : List (Deed μ)} (h : Machine.PoolTurn β depth m m' t deeds)
    {p : Pool Job} (hpool : (m.world.executor e).pool? = some p) :
    ∃ p', (m'.world.executor e).pool? = some p' ∧
      ((∃ s reply, deeds = [.step s reply] ∧ s.run m.world = some (reply, m'.world) ∧
        p' = (Deed.step s reply).onPool e p) ∨
      ((∀ s reply, .step s reply ∉ deeds) ∧ p' = { p with queue := p'.queue, workers := p'.workers } ∧
        p'.workers.length = p.workers.length)) := by
  -- A worker of this or of another executor changes its pool.
  have hset : ∀ e' q, m'.world = m.world.setPool e' q →
      q = { m.world.pool e' with queue := q.queue, workers := q.workers } →
      q.workers.length = (m.world.pool e').workers.length →
      ∃ p', (m'.world.executor e).pool? = some p' ∧
        p' = { p with queue := p'.queue, workers := p'.workers } ∧
          p'.workers.length = p.workers.length := by
    intro e' q hworld hrest hlength
    refine ⟨_, hworld ▸ World.pool?_setPool hpool e' q, ?_⟩
    split
    · rename_i he
      subst he
      rw [World.pool_of_pool? hpool] at hrest hlength
      exact ⟨hrest, hlength⟩
    · exact ⟨rfl, rfl⟩
  cases h with
  | step program world workers =>
    exact ⟨_, Step.pool?_run world hpool, .inl ⟨_, _, rfl, world, rfl⟩⟩
  | take _ take world =>
    obtain ⟨_, _, _, rfl⟩ := Pool.take_eq_some take
    obtain ⟨p', hp', hsame⟩ := hset _ _ world rfl List.length_set
    refine ⟨p', hp', .inr ⟨fun s reply hstep => ?_, hsame⟩⟩
    cases List.mem_singleton.mp hstep
  | finish _ finish world =>
    obtain ⟨_, _, rfl⟩ := Pool.finish_eq_some finish
    obtain ⟨p', hp', hsame⟩ := hset _ _ world rfl List.length_set
    exact ⟨p', hp', .inr ⟨fun _ _ => List.not_mem_nil, hsame⟩⟩
  | leave _ leave world =>
    obtain ⟨_, _, _, _, rfl⟩ := Pool.leave_eq_some leave
    obtain ⟨p', hp', hsame⟩ := hset _ _ world rfl List.length_set
    exact ⟨p', hp', .inr ⟨fun _ _ => List.not_mem_nil, hsame⟩⟩
  | aside quiet executors workers =>
    refine ⟨p, (Step.pool?_of_executors executors).trans hpool, .inr ⟨fun s reply hstep => ?_, rfl, rfl⟩⟩
    rcases quiet with rfl | rfl
    · cases hstep
    · cases List.mem_singleton.mp hstep

/-- A pool that has been closed stays closed. -/
theorem Machine.PoolTurn.accepting {deeds : List (Deed μ)} (h : Machine.PoolTurn β depth m m' t deeds)
    {p : Pool Job} (hpool : (m.world.executor e).pool? = some p)
    (hclosed : (m.world.pool e).accepting = false) : (m'.world.pool e).accepting = false := by
  rw [World.pool_of_pool? hpool] at hclosed
  obtain ⟨p', hpool', hchange⟩ := h.onPool hpool
  rw [World.pool_of_pool? hpool']
  rcases hchange with ⟨s, reply, -, -, rfl⟩ | ⟨-, hsame, -⟩
  · exact Deed.accepting_onPool _ e p hclosed
  · rw [hsame]
    exact hclosed

theorem Machine.Course.accepting (h : m.Course β depth later m') {p : Pool Job}
    (hpool : (m.world.executor e).pool? = some p) (hclosed : (m.world.pool e).accepting = false) :
    (m'.world.pool e).accepting = false := by
  induction h with
  | now => exact hclosed
  | turn before moved ih =>
    obtain ⟨q, hq⟩ := before.exists_pool hpool
    exact (Machine.poolTurn moved).accepting hq ih

theorem Machine.Course.accepting_of_close (h : m.Course β depth later m') {p : Pool Job}
    (hpool : (m.world.executor e).pool? = some p) (hclose : (t, .step (.close e) ()) ∈ later) :
    (m'.world.pool e).accepting = false := by
  obtain ⟨before, after, m₁, m₂, -, hbefore, hstep, hafter⟩ := h.exists_step hclose
  obtain ⟨q, hq⟩ := hbefore.exists_pool hpool
  have hclosed := Step.pool?_run hstep hq
  refine hafter.accepting hclosed ?_
  rw [World.pool_of_pool? hclosed, Deed.onPool, if_pos rfl]
  rfl

/-- A thread with a sender finds all workers in their places. -/
theorem Run.workers_of_sender (h : Run β depth memory body trace m)
    (hsender : (Access.conduct.standing trace t).sender = some e) :
    ∃ p, (m.world.executor e).pool? = some p ∧ 0 < p.borrowed ∧ p.deserted = false ∧
      ∀ i : Nat, p.workers[i]? ≠ some .left := by
  have hsound := Access.sound h t
  obtain ⟨p, hpool⟩ := hsound.known e (hsound.sender e hsender)
  have hledger := h.ledger_of_pool? hpool
  have hhas := Access.lends_le_lent e trace t
  rw [Access.lends, if_pos hsender, ← hledger.lent] at hhas
  have hleft : ∀ i : Nat, p.workers[i]? ≠ some .left := by
    intro i hi
    have hnone := (hledger.vacated i hi).2.2
    omega
  refine ⟨p, hpool, hhas, ?_, hleft⟩
  by_contra hdeserted
  obtain ⟨i, hi⟩ := Pool.exists_left_of_deserted (Bool.not_eq_false _ |>.mp hdeserted) hledger.staffed
  exact hleft i hi

/-- When a step is taken, the thread may take it. -/
theorem Run.allows_of_deeds (h : Run β depth memory body trace m) (hmoved : m.turn β depth t = some m')
    {s : Step μ} {reply : s.Reply} (hdeeds : m.deeds t = [.step s reply]) :
    (Access.conduct.standing trace t).Allows s ∧ s.run m.world = some (reply, m'.world) := by
  have hturn := Machine.poolTurn hmoved
  rw [hdeeds] at hturn
  generalize hlist : [Deed.step s reply] = deeds at hturn
  cases hturn with
  | step program world workers =>
    cases List.singleton_inj.mp hlist
    exact ⟨((Access.orderly h t).of_some program).1, world⟩
  | take => cases hlist
  | finish => cases hlist
  | leave => cases hlist
  | aside quiet => rcases quiet with rfl | rfl <;> cases hlist

/-- The sender that a thread has after a deed, if it borrows one or gives one back. -/
def Deed.sender? : Deed μ → Option (Option ExecutorId)
  | .step (.borrow e) true => some (some e)
  | .step (.giveBack _) _ => some none
  | _ => none

/-- The sender that a thread has borrowed and not given back yet. -/
def Trace.sender (t : Turn) : Trace μ → Option ExecutorId
  | [] => none
  | (u, deed) :: rest => if u = t then deed.sender?.getD (sender t rest) else sender t rest

theorem Access.sender_standing (trace : Trace μ) (t : Turn) :
    (conduct.standing trace t).sender = trace.sender t := by
  induction trace with
  | nil => rfl
  | cons entry rest ih =>
    obtain ⟨u, deed⟩ := entry
    rw [conduct.standing_cons, Trace.sender]
    by_cases hu : t = u
    · subst hu
      rw [if_pos rfl, if_pos rfl]
      cases deed with
      | took => exact ih
      | woke => exact ih
      | step s reply =>
        cases s with
        | readExecutor e => exact (sender_after_readExecutor (μ := μ) _ e reply).trans ih
        | borrow e =>
          cases reply with
          | false => exact ih
          | true => rfl
        | giveBack e => rfl
        | _ => exact ih
    · rw [if_neg hu, if_neg fun h => hu h.symm]
      exact ih

/-- How a thread hands a job to an executor, what the executor is, and whether it takes the job. -/
inductive HandsTo (e : ExecutorId) (job : Job) : Executor → Option Bool → List (Deed μ) → Prop where
  | offered (m : Manual) (accepted : Bool) : HandsTo e job (.manual m) (some accepted)
      [.step (.readExecutor e) (.manual m), .step (.offer e job) accepted]
  | sent {x : Executor} (staffed : x.view.kind ≠ .manual) (sent : Bool) : HandsTo e job x (some sent)
      [.step (.readExecutor e) x, .step (.borrow e) true, .step (.send e job) sent,
        .step (.giveBack e) ()]
  | closed {x : Executor} (staffed : x.view.kind ≠ .manual) : HandsTo e job x none
      [.step (.readExecutor e) x, .step (.borrow e) false]

theorem ends_sendToWorkers {job : Job} {deeds : List (Deed μ)} {taken : Option Bool}
    (h : Proc.Ends (sendToWorkers e job) deeds taken) {x : Executor} (hx : x.view.kind ≠ .manual) :
    HandsTo e job x taken (.step (.readExecutor e) x :: deeds) := by
  obtain ⟨borrowed, rest, rfl, hborrowed⟩ := Proc.ends_ask_bind h
  cases borrowed with
  | false =>
    obtain ⟨rfl, rfl⟩ := Proc.ends_done hborrowed
    exact .closed hx
  | true =>
    obtain ⟨sent, rest, rfl, hsent⟩ := Proc.ends_ask_bind hborrowed
    obtain ⟨_, rest, rfl, hback⟩ := Proc.ends_ask_bind hsent
    obtain ⟨rfl, rfl⟩ := Proc.ends_done hback
    exact .sent hx sent

/-- A submission hands the job over and then settles the matter. -/
theorem ends_submit {client : Client μ} {name : Thread} {job : Job} {deeds : List (Deed μ)}
    {answer : Except BusError Unit} (h : Proc.Ends (submit client name e job) deeds answer) :
    ∃ x taken handed settled, deeds = handed ++ settled ∧ HandsTo e job x taken handed ∧
      Proc.Ends (settling client name job (x, taken)) settled answer := by
  rw [submit_eq] at h
  obtain ⟨⟨x, taken⟩, handed, settled, hhanded, hsettled, rfl⟩ := Proc.ends_bind h
  refine ⟨x, taken, handed, settled, rfl, ?_, hsettled⟩
  obtain ⟨y, rest, rfl, hrest⟩ := Proc.ends_ask_bind hhanded
  cases y with
  | manual m =>
    obtain ⟨accepted, rest, rfl, hdone⟩ := Proc.ends_ask_bind hrest
    obtain ⟨rfl, heq⟩ := Proc.ends_done hdone
    cases heq
    exact .offered m accepted
  | pool threadName p =>
    obtain ⟨taken', sending, _, hsending, hdone, rfl⟩ := Proc.ends_bind hrest
    obtain ⟨rfl, heq⟩ := Proc.ends_done hdone
    cases heq
    rw [List.append_nil]
    exact ends_sendToWorkers hsending nofun
  | runtime p =>
    obtain ⟨taken', sending, _, hsending, hdone, rfl⟩ := Proc.ends_bind hrest
    obtain ⟨rfl, heq⟩ := Proc.ends_done hdone
    cases heq
    rw [List.append_nil]
    exact ends_sendToWorkers hsending nofun

/-- A job that has not been taken is dropped, and answered by the executor's rejection if there is one. A
pool could only say something else if all its workers had left it. -/
theorem ends_settling {client : Client μ} {name : Thread} {job : Job} {x : Executor}
    {taken : Option Bool} {deeds : List (Deed μ)} {answer : Except BusError Unit}
    (h : Proc.Ends (settling client name job (x, taken)) deeds answer) :
    (taken = some true ∧ deeds = [] ∧ answer = .ok ()) ∨
    (taken = some false ∧ x.view.kind = .pool) ∨
    (taken ≠ some true ∧ Proc.Ends (dropJob client name job) deeds () ∧
      answer = x.rejection?.elim (.ok ()) .error) := by
  have hdropped : ∀ {said : Except BusError Unit}, Proc.Ends ((dropJob client name job).bind fun _ =>
      .done said) deeds answer → Proc.Ends (dropJob client name job) deeds () ∧ answer = said := by
    intro said hdrop
    obtain ⟨_, dropping, _, hdropping, hdone, rfl⟩ := Proc.ends_bind hdrop
    obtain ⟨rfl, rfl⟩ := Proc.ends_done hdone
    rw [List.append_nil]
    exact ⟨hdropping, rfl⟩
  cases taken with
  | none => cases x <;> exact .inr (.inr ⟨nofun, hdropped h⟩)
  | some accepted =>
    cases accepted with
    | true => exact .inl ⟨rfl, Proc.ends_done h⟩
    | false =>
      cases x with
      | pool threadName p => exact .inr (.inl ⟨rfl, rfl⟩)
      | _ => exact .inr (.inr ⟨nofun, hdropped h⟩)

theorem Machine.PoolTurn.traits {deeds : List (Deed μ)} (h : Machine.PoolTurn β depth m m' t deeds)
    (hopen : e < m.world.executors.length) : e < m'.world.executors.length ∧
      (m'.world.executor e).traits = (m.world.executor e).traits := by
  have hset : ∀ e' q, m'.world = m.world.setPool e' q → e < m'.world.executors.length ∧
      (m'.world.executor e).traits = (m.world.executor e).traits := by
    rintro e' q hworld
    rw [hworld, World.traits_setPool, World.setPool, World.setExecutor, List.length_set]
    exact ⟨hopen, rfl⟩
  cases h with
  | step program world workers => exact Step.traits_run world hopen
  | take _ _ world => exact hset _ _ world
  | finish _ _ world => exact hset _ _ world
  | leave _ _ world => exact hset _ _ world
  | aside _ executors => exact ⟨executors ▸ hopen, by rw [World.executor, executors]; rfl⟩

/-- An executor stays what it is. -/
theorem Machine.Course.traits (h : m.Course β depth later m') (hopen : e < m.world.executors.length) :
    e < m'.world.executors.length ∧ (m'.world.executor e).traits = (m.world.executor e).traits := by
  induction h with
  | now => exact ⟨hopen, rfl⟩
  | turn _ moved ih =>
    obtain ⟨hopen', htraits⟩ := ih
    obtain ⟨hopen'', htraits'⟩ := (Machine.poolTurn moved).traits hopen'
    exact ⟨hopen'', htraits'.trans htraits⟩

/-- Whoever looks at it sees the same traits. -/
theorem Machine.Course.traits_of_read (h : m.Course β depth later m')
    (hopen : e < m.world.executors.length) {x : Executor}
    (hread : (t, .step (.readExecutor e) x) ∈ later) : x.traits = (m.world.executor e).traits := by
  obtain ⟨before, after, m₁, m₂, -, hbefore, hstep, -⟩ := h.exists_step hread
  have hx : m₁.world.executor e = x := congrArg Prod.fst (Option.some.inj hstep)
  rw [← hx]
  exact (hbefore.traits hopen).2

/-- No thread ever finds that nobody is left to take its job. -/
theorem Run.send_ne_false (h : Run β depth memory body trace m) {job : Job} :
    (t, .step (.send e job) false) ∉ trace := by
  induction h with
  | start => exact List.not_mem_nil
  | @turn trace m m' u before moved ih =>
    intro hmem
    rcases List.mem_append.mp hmem with hnew | hold
    · obtain ⟨deed, hdeed, heq⟩ := List.mem_map.mp hnew
      cases heq
      obtain ⟨hallows, hrun⟩ := before.allows_of_deeds moved (Machine.deeds_eq_of_mem moved hdeed)
      obtain ⟨p, hpool, -, hdeserted, -⟩ := before.workers_of_sender hallows
      have hreply := Step.send_reply hrun hpool
      rw [hdeserted] at hreply
      cases hreply
    · exact ih hold

/-- What a worker still has to do once its job has ended, in a panic or not. -/
def wrapUp (e i : Nat) (ended : Option Payload) : Proc μ Unit := do
  let executor ← Proc.readExecutor e
  match ended, executor with
  | some payload, .pool threadName _ =>
    Proc.log (.worker e i) .error "typebus::executors::pool" "job panicked"
      [("worker", threadName ++ "-" ++ toString i), ("panic", payload.message)]
  | _, _ => return ()

/-- A worker is idle after some turns of its own. -/
def Machine.FreesItself (β : Behaviour μ) (depth : Nat) (e i : Nat) (m : Machine μ α) : Prop :=
  ∃ turns later m', (∀ t ∈ turns, t = .worker e i) ∧ m.play β depth turns = some (later, m') ∧
    (m'.world.pool e).workers[i]? = some .idle

theorem Machine.FreesItself.of_turn {i : Nat} (h : m'.FreesItself β depth e i)
    (hturn : m.turn β depth (.worker e i) = some m') : m.FreesItself β depth e i := by
  obtain ⟨turns, later, last, hturns, hplay, hidle⟩ := h
  refine ⟨.worker e i :: turns, later ++ (m.deeds (.worker e i)).map (.worker e i, ·), last,
    List.forall_mem_cons.mpr ⟨rfl, hturns⟩, ?_, hidle⟩
  simp only [play, hturn, hplay, Option.map_some]

/-- Nothing keeps a worker from this once its job has ended. -/
theorem Ledger.freesItself {p : Pool Job} (h : Ledger e trace m p)
    (hpool : (m.world.executor e).pool? = some p) {i : Nat} {ended : Option Payload}
    (hprogram : m.workers.get? (e, i) = some (wrapUp e i ended)) : m.FreesItself β depth e i := by
  obtain ⟨job, hbusy⟩ := (h.busy i).mp (by rw [hprogram]; rfl)
  have hlast : ∀ m' : Machine μ α, m'.world.executors = m.world.executors →
      m'.workers.get? (e, i) = some (.done ()) → m'.FreesItself β depth e i := by
    intro m' hexecutors hdone
    have hpool' := (Step.pool?_of_executors hexecutors).trans hpool
    have hfinish : (m'.world.pool e).finish i = some { p with workers := p.workers.set i .idle } := by
      rw [World.pool_of_pool? hpool', Pool.finish, hbusy]
    refine .of_turn ⟨[], [], _, List.forall_mem_nil _, rfl, ?_⟩ (Machine.turn_worker_done hdone hfinish)
    rw [World.pool_of_pool? (World.pool?_setPool hpool' e _), if_pos rfl]
    exact (Pool.getElem?_set_workers hbusy).trans (if_pos rfl)
  refine .of_turn ?_ (Machine.turn_worker_step hprogram rfl)
  generalize m.world.executor e = executor
  cases ended with
  | none => exact hlast _ rfl (Keyed.get?_insert_self ..)
  | some payload =>
    cases executor with
    | pool threadName q =>
      refine .of_turn ?_ (Machine.turn_worker_step (Keyed.get?_insert_self ..) rfl)
      exact hlast _ rfl (Keyed.get?_insert_self ..)
    | manual m => exact hlast _ rfl (Keyed.get?_insert_self ..)
    | runtime q => exact hlast _ rfl (Keyed.get?_insert_self ..)

/-- How a submission is answered to a thread: its job has been accepted, or it has found the pool shut
down. The traces are those before and since the submission. -/
inductive Answered (e : ExecutorId) (trace later : Trace μ) (t : Turn) (p : Pool Job) (job : Job) :
    Except BusError Unit → Prop where
  | accepted {before after : Trace μ} (sent : later = after ++ (t, .step (.send e job) true) :: before)
      (place : (Trace.accepted (later ++ trace) e)[(Trace.accepted (before ++ trace) e).length]? =
      some job)
      (accepting : p.accepting = true) : Answered e trace later t p job (.ok ())
  | rejected {before after : Trace μ} (found : later = after ++ (t, .step (.borrow e) false) :: before)
      (closed : ∃ u, (u, .step (.close e) ()) ∈ before ++ trace) :
      Answered e trace later t p job (.error shutDown)

/-- What a worker pool owes to those who submit jobs to it, at one moment of a run and later. -/
structure KeepsJobs (β : Behaviour μ) (depth : Nat) (memory : μ) (body : Body μ α) (e : ExecutorId)
    (trace : Trace μ) (m : Machine μ α) (p : Pool Job) : Prop where
  /-- Jobs are started in the order in which they were accepted. The others wait in this order. -/
  order : trace.accepted e = (trace.started e).map Prod.snd ++ p.queue
  stage : ∀ k job, (trace.accepted e)[k]? = some job →
    ∃! stage, AtStage β depth memory body e trace m k job stage
  /-- A worker with a job keeps it until it has come to its end, and is idle then. -/
  busy : ∀ t m' (i : Nat) job, m.turn β depth t = some m' → p.workers[i]? = some (.busy job) →
    (m'.world.pool e).workers[i]? = some (.busy job) ∨
      m.workers.get? (e, i) = some (.done ()) ∧ (m'.world.pool e).workers[i]? = some .idle
  /-- Nothing keeps a worker from this, however its job has ended. -/
  resumes : ∀ i ended, m.workers.get? (e, i) = some (wrapUp e i ended) → m.FreesItself β depth e i
  leaves : ∀ t m' (i : Nat), m.turn β depth t = some m' → p.workers[i]? ≠ some .left →
    (m'.world.pool e).workers[i]? = some .left →
      p.workers[i]? = some .idle ∧ p.queue = [] ∧ p.accepting = false ∧ ∀ u, trace.sender u ≠ some e
  /-- After a worker has left, no job is accepted any more. -/
  left : ∀ i : Nat, p.workers[i]? = some .left → ∀ later m', m.Course β depth later m' →
    (m'.world.pool e).queue = [] ∧ Trace.accepted later e = []
  deserted : (∀ worker ∈ p.workers, worker = .left) → ∀ k job, (trace.accepted e)[k]? = some job →
    ∃ i, AtStage β depth memory body e trace m k job (.finished i)
  closed : p.accepting = false → ∃ u, (u, .step (.close e) ()) ∈ trace
  /-- A shutdown closes the pool for good. -/
  closes : ∀ later m' u, m.Course β depth later m' → (u, .step (.close e) ()) ∈ later →
    (m'.world.pool e).accepting = false
  /-- A submission that begins now is answered in one of two ways. -/
  answers : ∀ later m' t (client : Client μ) name job next deeds answer,
    m.Course β depth later m' → m.program? t = some ((submit client name e job).bind next) →
    deeds <+: later.deedsOf t → Proc.Ends (submit client name e job) deeds answer →
      Answered e trace later t p job answer
  /-- Nothing keeps it from being rejected after a shutdown. -/
  rejects : p.accepting = false → ∀ (client : Client μ) name label code,
    (submit client name e (.work label code)).alone m.world = some (.error shutDown, m.world)
  /-- Nobody is told that the queue is closed. -/
  met : ∀ t job, (t, .step (.send e job) false) ∉ trace

theorem Run.answered (hrun : Run β depth memory body trace m) {threadName : String} {p : Pool Job}
    (hpool : m.world.executor e = .pool threadName p) (hcourse : m.Course β depth later m')
    {client : Client μ} {name : Thread} {job : Job} {deeds : List (Deed μ)}
    {answer : Except BusError Unit} (hdeeds : deeds <+: later.deedsOf t)
    (hends : Proc.Ends (submit client name e job) deeds answer) :
    Answered e trace later t p job answer := by
  have hp : (m.world.executor e).pool? = some p := by rw [hpool]; rfl
  obtain ⟨executor, taken, handed, settled, rfl, hhanded, hsettled⟩ := ends_submit hends
  have hdone : ∀ deed ∈ handed, (t, deed) ∈ later := fun deed hdeed =>
    Trace.mem_deedsOf.mp (hdeeds.subset (List.mem_append_left settled hdeed))
  have htraits : executor.traits = (m.world.executor e).traits := by
    have hread : .step (.readExecutor e) executor ∈ handed := by
      cases hhanded <;> exact List.mem_cons_self
    exact hcourse.traits_of_read (World.lt_of_pool? hp) (hdone _ hread)
  have hkind : executor.view.kind = .pool := by
    rw [show executor.view.kind = _ from congrArg Prod.fst htraits, hpool]
    rfl
  have hrejection : executor.rejection? = some shutDown := by
    rw [show executor.rejection? = _ from congrArg (·.2.2) htraits, hpool]
    rfl
  -- How the pool answers a thread that wants to borrow a sender.
  have hborrow : ∀ borrowed, .step (.borrow e) borrowed ∈ handed → ∃ before after m₁,
      later = after ++ (t, .step (.borrow e) borrowed) :: before ∧ m.Course β depth before m₁ ∧
        borrowed = (m₁.world.pool e).accepting := by
    intro borrowed hmem
    obtain ⟨before, after, m₁, m₂, hsplit, hbefore, hstep, -⟩ := hcourse.exists_step (hdone _ hmem)
    obtain ⟨q, hq⟩ := hbefore.exists_pool hp
    exact ⟨before, after, m₁, hsplit, hbefore, World.pool_of_pool? hq ▸ Step.borrow_reply hstep hq⟩
  have hmet : .step (.send e job) false ∉ handed := fun hmem =>
    (hrun.course hcourse).send_ne_false (List.mem_append_left trace (hdone _ hmem))
  cases hhanded with
  | offered => cases hkind
  | closed =>
    obtain ⟨before, after, m₁, hsplit, hbefore, hclosed⟩ := hborrow false (by simp)
    obtain ⟨q, hq⟩ := hbefore.exists_pool hp
    rw [World.pool_of_pool? hq] at hclosed
    obtain ⟨taken, -⟩ | ⟨taken, -⟩ | ⟨-, -, rfl⟩ := ends_settling hsettled
    · cases taken
    · cases taken
    · rw [hrejection]
      exact .rejected hsplit (((hrun.course hbefore).ledger_of_pool? hq).closed hclosed.symm)
  | sent _ sent =>
    cases sent with
    | false => exact absurd (by simp) hmet
    | true =>
      obtain ⟨after, before, hsplit⟩ := List.append_of_mem (hdone (.step (.send e job) true) (by simp))
      obtain ⟨-, -, rfl⟩ | ⟨taken, -⟩ | ⟨taken, -⟩ := ends_settling hsettled
      · refine .accepted hsplit ?_ ?_
        · rw [hsplit, List.append_assoc, List.cons_append, Trace.accepted_append,
            ← List.singleton_append, Trace.accepted_append, Trace.accepted_singleton, List.append_assoc,
            List.getElem?_append_right (Nat.le_refl _), Nat.sub_self]
          simp only [Deed.sent?, if_true, Option.toList_some, List.singleton_append,
            List.getElem?_cons_zero]
        · obtain ⟨_, _, m₁, _, hbefore, haccepting⟩ := hborrow true (by simp)
          by_contra hclosed
          have hstill := hbefore.accepting hp (World.pool_of_pool? hp ▸ Bool.eq_false_iff.mpr hclosed)
          rw [hstill] at haccepting
          cases haccepting
      · cases taken
      · exact absurd rfl taken

/-- A machine that a worker has left accepts no more jobs. -/
theorem Run.accepted_of_left (hrun : Run β depth memory body trace m) {p : Pool Job}
    (hpool : (m.world.executor e).pool? = some p) {i : Nat}
    (hleft : (m.world.pool e).workers[i]? = some .left) (hcourse : m.Course β depth later m') :
    Trace.accepted later e = [] := by
  rw [List.eq_nil_iff_forall_not_mem]
  intro job hjob
  obtain ⟨t, hsent⟩ := (Trace.mem_accepted ..).mp hjob
  obtain ⟨before, after, m₁, m₂, -, hbefore, hmoved, hdeeds, -⟩ := hcourse.exists_moment_of_mem hsent
  have hrun₁ := hrun.course hbefore
  obtain ⟨q, hq, -, -, hplaces⟩ := hrun₁.workers_of_sender (hrun₁.allows_of_deeds hmoved hdeeds).1
  exact hplaces i (World.pool_of_pool? hq ▸ hbefore.left hpool hleft)

/-- Once all workers have left, nothing is waiting and nothing is being run. -/
theorem Run.finished_of_left (hrun : Run β depth memory body trace m) {p : Pool Job}
    (hpool : (m.world.executor e).pool? = some p) (hleft : ∀ worker ∈ p.workers, worker = .left)
    {k : Nat} {job : Job} (haccepted : (trace.accepted e)[k]? = some job) :
    ∃ i, AtStage β depth memory body e trace m k job (.finished i) := by
  have hledger := hrun.ledger_of_pool? hpool
  have hqueue : p.queue = [] := by
    obtain ⟨worker, rest, hworkers⟩ := List.exists_cons_of_ne_nil hledger.staffed
    refine (hledger.vacated 0 ?_).1
    rw [hworkers, List.getElem?_cons_zero, hleft worker (hworkers ▸ List.mem_cons_self)]
  rw [hrun.getElem?_accepted hpool, hqueue] at haccepted
  split at haccepted
  · obtain ⟨⟨i, job'⟩, hstarted, rfl⟩ := Option.map_eq_some_iff.mp haccepted
    have hnot : ¬Running e trace m k i job' := by
      intro hrunning
      have hbusy := hrunning.busy
      rw [World.pool_of_pool? hpool] at hbusy
      cases hleft _ (List.mem_of_getElem? hbusy)
    exact ⟨i, .finished hstarted ((hrun.running_or_cameToEnd hstarted).resolve_left hnot) hnot⟩
  · cases haccepted

/-- Whatever the threads do, in whatever order, and however jobs end: each job that a worker pool has
accepted waits, runs or has ended, and jobs are started once, in the order in which they were accepted. A
worker that is done with a job takes the next one, and leaves only when none is left and the pool is
closed. A submission is accepted or, after a shutdown, rejected. -/
theorem worker_pool_keeps_jobs (hrun : Run β depth memory body trace m) {threadName : String}
    {p : Pool Job} (hpool : m.world.executor e = .pool threadName p) :
    KeepsJobs β depth memory body e trace m p := by
  have hp : (m.world.executor e).pool? = some p := by rw [hpool]; rfl
  have hsame := World.pool_of_pool? hp
  have hledger := hrun.ledger_of_pool? hp
  constructor
  · exact hledger.order
  · exact fun k job haccepted => hrun.existsUnique_atStage hp haccepted
  · intro t m' i job hmoved hbusy
    cases (Machine.poolTurn hmoved).workerChange hp i with
    | same worker => exact .inl (worker.trans (hsame ▸ hbusy))
    | starts _ _ idle => cases (hsame ▸ idle).symm.trans hbusy
    | ends _ _ _ complete idle => exact .inr ⟨complete, idle⟩
    | leaves _ _ idle => cases (hsame ▸ idle).symm.trans hbusy
  · exact fun i ended hprogram => hledger.freesItself hp hprogram
  · intro t m' i hmoved hstays hleft
    cases (Machine.poolTurn hmoved).workerChange hp i with
    | same worker => exact absurd (hsame ▸ worker.symm.trans hleft) hstays
    | starts _ _ _ busy => cases busy.symm.trans hleft
    | ends _ _ _ _ idle => cases idle.symm.trans hleft
    | leaves _ _ idle queue accepting borrowed =>
      rw [hsame] at idle queue accepting borrowed
      refine ⟨idle, queue, accepting, ?_⟩
      intro u hsender
      obtain ⟨q, hq, hlent, -⟩ := hrun.workers_of_sender ((Access.sender_standing trace u).trans hsender)
      cases hp.symm.trans hq
      omega
  · intro i hleft later m' hcourse
    have hleft' := hcourse.left hp (hsame.symm ▸ hleft)
    obtain ⟨q, hq⟩ := hcourse.exists_pool hp
    rw [World.pool_of_pool? hq] at hleft' ⊢
    exact ⟨(((hrun.course hcourse).ledger_of_pool? hq).vacated i hleft').1,
      hrun.accepted_of_left hp (hsame.symm ▸ hleft) hcourse⟩
  · exact fun hleft k job haccepted => hrun.finished_of_left hp hleft haccepted
  · exact hledger.closed
  · exact fun later m' u hcourse hclose => hcourse.accepting_of_close hp hclose
  · exact fun later m' t client name job next deeds answer hcourse _ hdeeds hends =>
      hrun.answered hpool hcourse hdeeds hends
  · intro hclosed client name label code
    have hborrow : (m.world.pool e).borrow = none := by
      rw [hsame, Pool.borrow, hclosed]
      rfl
    rw [submit_eq, Proc.alone_bind]
    have hhanding : (handing e (.work label code)).alone m.world =
        some ((.pool threadName p, none), m.world) := by
      simp only [handing, sendToWorkers, Proc.readExecutor, Proc.borrow, Proc.atom, ask, bind_eq,
        step_bind, done_bind, Proc.alone_step, Step.run, hpool, hborrow, Option.bind_some]
      rfl
    rw [hhanding]
    rfl
  · exact fun t job => hrun.send_ne_false

/-- A worker pool whose threads go by this name. -/
def Executor.isPool (threadName : String) : Executor → Bool
  | .pool name _ => name = threadName
  | _ => false

theorem Executor.exists_of_isPool {x : Executor} {threadName : String}
    (h : x.isPool threadName = true) : ∃ p, x = .pool threadName p := by
  cases x with
  | pool name p =>
    obtain rfl : name = threadName := of_decide_eq_true h
    exact ⟨p, rfl⟩
  | _ => cases h

/-- The first job panics, the second shuts the pool down from inside, and the third comes too late. -/
theorem worker_pool_keeps_jobs_of_panic_and_shutdown :
    let β : Behaviour Unit := {
      handle _ _ := .done .fine
      observe _ _ := .done none
      work body := match body.serial with
        | 0 => .done (some .other)
        | _ => .step (.shutdown 0) fun _ => .done none }
    let body : Body Unit (Except BusError Unit) :=
      .step (.startPool ⟨1, 1, "hand"⟩) fun e => .step (.submit e "break" ⟨0⟩) fun _ =>
        .step (.submit e "close" ⟨1⟩) fun _ => .step (.submit e "late" ⟨0⟩) fun answer => .done answer
    ∃ trace m p, Run β 2 () body trace m ∧ m.world.executor 0 = .pool "hand" p ∧
      (∀ worker ∈ p.workers, worker = .left) ∧ (trace.accepted 0).length = 2 ∧
      KeepsJobs β 2 () body 0 trace m p := by
  intro β body
  let turns : List Turn := List.replicate 6 (.caller 0) ++ List.replicate 5 (.worker 0 0) ++
    List.replicate 4 (.caller 0) ++ List.replicate 7 (.worker 0 0) ++ List.replicate 2 (.caller 0)
  have hseen : ((Machine.start β 2 () body).play β 2 turns).any (fun run =>
      (Trace.accepted run.1 0).length = 2 ∧ (run.2.world.pool 0).deserted = true ∧
      (run.2.world.executor 0).isPool "hand" = true) = true := by
    decide +kernel
  obtain ⟨trace, m, hrun, hfacts⟩ := Run.exists_of_play hseen
  obtain ⟨hlength, hdeserted, hpool⟩ := of_decide_eq_true hfacts
  obtain ⟨p, hexecutor⟩ := Executor.exists_of_isPool hpool
  refine ⟨trace, m, p, hrun, hexecutor, ?_, hlength, worker_pool_keeps_jobs hrun hexecutor⟩
  have hp : m.world.pool 0 = p := by rw [World.pool, hexecutor]; rfl
  rw [hp] at hdeserted
  intro worker hworker
  have hleft := List.all_eq_true.mp hdeserted worker hworker
  cases worker <;> first | rfl | cases hleft

end PubSub
