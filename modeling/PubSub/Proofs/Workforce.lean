import PubSub.Proofs.Course
import PubSub.Proofs.Handover
import PubSub.Proofs.Lending

/-!
# Turns and workers

What a turn of a machine means for the workers of its executors: one of them takes a job, comes to
the end of a job or leaves, or a thread takes a step on their pool.
-/
namespace PubSub

variable {μ α : Type}

/-- The rejection of a job by a pool that has been shut down. -/
def shutDown : BusError := .rejected "WorkerPool" "worker pool is shut down"

namespace Executor

/-- What an executor answers to a job that it does not take. A runtime does not say so. -/
def rejection? : Executor → Option BusError
  | .manual m => some m.rejection
  | .pool _ _ => some shutDown
  | .runtime _ => none

/-- What never changes about an executor: its kind, its name and what it answers to a job that it does
not take. -/
def traits (x : Executor) : ExecutorKind × String × Option BusError :=
  (x.view.kind, x.view.name, x.rejection?)

/-- The same executor, with the same pool if it has one. -/
structure Resembles (x' x : Executor) : Prop where
  pool : x'.pool? = x.pool?
  traits : x'.traits = x.traits

theorem offer_resembles (x : Executor) (job : Job) : (x.offer job).2.Resembles x := by
  cases x with
  | manual m =>
    rw [offer]
    split <;> exact ⟨rfl, rfl⟩
  | _ => exact ⟨rfl, rfl⟩

theorem pick_resembles (x : Executor) (place : Nat) : (x.pick place).2.Resembles x := by
  cases x <;> exact ⟨rfl, rfl⟩

theorem withRoom_resembles (x : Executor) (room : Option Nat) : (x.withRoom room).Resembles x := by
  cases x <;> exact ⟨rfl, rfl⟩

theorem mem_jobs_offer {x : Executor} {job : Job} (new : Job) (h : job ∈ x.jobs) :
    job ∈ (x.offer new).2.jobs := by
  cases x with
  | manual m =>
    rw [offer]
    split <;> simp_all [jobs]
  | _ => exact h

/-- What is not picked stays. -/
theorem mem_jobs_pick {x : Executor} {job : Job} (place : Nat) (h : job ∈ x.jobs) :
    job ∈ (x.pick place).2.jobs ∨ (x.pick place).1 = some job := by
  cases x with
  | manual m =>
    obtain ⟨k, hk⟩ := List.mem_iff_getElem?.mp h
    by_cases hplace : k = place
    · exact .inr (hplace ▸ hk)
    · exact .inl (List.mem_eraseIdx_iff_getElem?.mpr ⟨k, hplace, hk⟩)
  | _ => exact .inl h

theorem traits_setPool (x : Executor) (p : Pool Job) : (x.setPool p).traits = x.traits := by
  cases x <;> rfl

end Executor

namespace World

variable {w : World μ} {e : ExecutorId}

theorem executor_setExecutor_eq (e e' : ExecutorId) (x : Executor) :
    (w.setExecutor e x).executor e' = if e = e' ∧ e < w.executors.length then x else w.executor e' := by
  by_cases he : e = e'
  · subst he
    by_cases hopen : e < w.executors.length
    · rw [if_pos ⟨rfl, hopen⟩, executor, setExecutor, List.getElem?_set_self hopen]
      rfl
    · rw [if_neg fun h => hopen h.2, setExecutor_of_le x (Nat.le_of_not_lt hopen)]
  · rw [if_neg fun h => he h.1, executor, setExecutor, List.getElem?_set_ne he]
    rfl

theorem pool_of_pool? {p : Pool Job} (h : (w.executor e).pool? = some p) : w.pool e = p := by
  rw [pool, h]
  rfl

theorem lt_of_pool? {p : Pool Job} (h : (w.executor e).pool? = some p) : e < w.executors.length := by
  by_contra hlen
  rw [executor_eq_absent (Nat.le_of_not_lt hlen)] at h
  cases h

/-- Only the executor itself notices that its pool changes. -/
theorem pool?_setPool {p : Pool Job} (h : (w.executor e).pool? = some p) (e' : ExecutorId)
    (q : Pool Job) :
    ((w.setPool e' q).executor e).pool? = some (if e' = e then q else p) := by
  rw [setPool, executor_setExecutor_eq]
  by_cases he : e' = e
  · subst he
    rw [if_pos ⟨rfl, lt_of_pool? h⟩, if_pos rfl]
    exact Executor.pool?_setPool (by rw [h]; rfl) q
  · rw [if_neg fun h => he h.1, if_neg he, h]

/-- An executor without workers does not get any. -/
theorem pool?_setPool_none (h : (w.executor e).pool? = none) (e' : ExecutorId) (q : Pool Job) :
    ((w.setPool e' q).executor e).pool? = none := by
  rw [setPool, executor_setExecutor_eq]
  split
  · rename_i he
    obtain ⟨rfl, -⟩ := he
    generalize w.executor e' = x at h
    cases x <;> first | exact h | cases h
  · exact h

/-- Nobody notices a change of an executor in what has not changed there. -/
theorem apply_setExecutor {A : Type} (f : Executor → A) {x : Executor} {e' : ExecutorId}
    (h : f x = f (w.executor e')) : f ((w.setExecutor e' x).executor e) = f (w.executor e) := by
  rw [executor_setExecutor_eq]
  split
  · rename_i he
    rw [h, he.1]
  · rfl

theorem traits_setPool (e' : ExecutorId) (p : Pool Job) :
    ((w.setPool e' p).executor e).traits = (w.executor e).traits :=
  apply_setExecutor Executor.traits (Executor.traits_setPool ..)

end World

/-- What a deed makes of the pool of an executor. -/
def Deed.onPool (e : ExecutorId) (p : Pool Job) : Deed μ → Pool Job
  | .step (.borrow e') true => if e' = e then { p with borrowed := p.borrowed + 1 } else p
  | .step (.send e' job) true => if e' = e then { p with queue := p.queue ++ [job] } else p
  | .step (.giveBack e') _ => if e' = e then p.giveBack else p
  | .step (.close e') _ => if e' = e then p.close else p
  | .step (.claim e') _ => if e' = e then p.claim.2 else p
  | _ => p

namespace Step

/-- What a step does to the executors. -/
inductive OnExecutors (s : Step μ) (reply : s.Reply) (w w' : World μ) : Prop where
  | same (executors : w'.executors = w.executors)
      (idle : ∀ e p, (Deed.step s reply).onPool e p = p)
  | manual {e' : ExecutorId} {x : Executor} (world : w' = w.setExecutor e' x)
      (resembles : x.Resembles (w.executor e'))
      (keeps : ∀ job ∈ (w.executor e').jobs, job ∈ x.jobs ∨
        ∃ place, Deed.step s reply = .step (.pick e' place) (some job))
      (idle : ∀ e p, (Deed.step s reply).onPool e p = p)
  | pool {e' : ExecutorId} {f : Pool Job → Pool Job}
      (world : w' = w.setPool e' (f (w.pool e')))
      (acts : ∀ e p, (Deed.step s reply).onPool e p = if e' = e then f p else p)
  | opened {x : Executor} (deed : Deed.step s reply = .step (.openExecutor x) w.executors.length)
      (executors : w'.executors = w.executors ++ [x])

variable {s : Step μ} {reply : s.Reply} {w w' : World μ} {e : ExecutorId} {p : Pool Job}

theorem pool?_of_executors (h : w'.executors = w.executors) :
    (w'.executor e).pool? = (w.executor e).pool? := by
  rw [World.executor, h]
  rfl

theorem onExecutors (h : s.run w = some (reply, w')) : s.OnExecutors reply w w' := by
  cases s with
  | offer e' job =>
    cases h
    exact .manual rfl (Executor.offer_resembles ..) (fun _ hjob => .inl (Executor.mem_jobs_offer _ hjob))
      fun _ _ => rfl
  | pick e' place =>
    cases h
    refine .manual rfl (Executor.pick_resembles ..) (fun job hjob => ?_) fun _ _ => rfl
    exact (Executor.mem_jobs_pick place hjob).imp_right fun hpicked =>
      ⟨place, congrArg (Deed.step (.pick e' place)) hpicked⟩
  | setRoom e' room =>
    cases h
    refine .manual rfl (Executor.withRoom_resembles ..) (fun job hjob => .inl ?_) fun _ _ => rfl
    generalize w.executor e' = x at hjob ⊢
    cases x <;> exact hjob
  | borrow e' =>
    rw [run, Pool.borrow] at h
    split at h
    · rename_i q hborrow
      cases h
      split at hborrow <;> cases hborrow
      exact .pool (f := fun q => { q with borrowed := q.borrowed + 1 }) rfl fun _ _ => rfl
    · cases h
      exact .same rfl fun _ _ => rfl
  | send e' job =>
    obtain ⟨⟨sent, q⟩, hsend, heq⟩ := Option.map_eq_some_iff.mp h
    cases heq
    rw [Pool.send] at hsend
    split at hsend
    · cases hsend
      exact .pool (f := id) rfl fun _ _ => (ite_self _).symm
    · split at hsend <;> cases hsend
      exact .pool (f := fun q => { q with queue := q.queue ++ [job] }) rfl fun _ _ => rfl
  | giveBack e' =>
    cases h
    exact .pool (f := Pool.giveBack) rfl fun _ _ => rfl
  | close e' =>
    cases h
    exact .pool (f := Pool.close) rfl fun _ _ => rfl
  | claim e' =>
    cases h
    exact .pool (f := fun q => q.claim.2) rfl fun _ _ => rfl
  | openExecutor x =>
    cases h
    exact .opened rfl rfl
  | computeTable t b type =>
    cases h
    exact .same (by rw [World.recordAll_eq]) fun _ _ => rfl
  | readBus | keepTable | share | acquire =>
    obtain ⟨_, -, heq⟩ := Option.map_eq_some_iff.mp h
    cases heq
    exact .same rfl fun _ _ => rfl
  | enrol | dismiss | join | joinTask | rest | await =>
    rw [run] at h
    split at h <;> cases h <;> exact .same rfl fun _ _ => rfl
  | _ =>
    cases h
    exact .same rfl fun _ _ => rfl

/-- What a step makes of the pool of an executor that has one. -/
theorem pool?_run (h : s.run w = some (reply, w')) (hpool : (w.executor e).pool? = some p) :
    (w'.executor e).pool? = some ((Deed.step s reply).onPool e p) := by
  cases onExecutors h with
  | same executors idle => rw [idle, pool?_of_executors executors, hpool]
  | manual world resembles _ idle =>
    rw [idle, world, World.apply_setExecutor Executor.pool? resembles.pool, hpool]
  | @pool e' f world acts =>
    rw [acts, world, World.pool?_setPool hpool]
    by_cases he : e' = e
    · rw [if_pos he, if_pos he, he, World.pool_of_pool? hpool]
    · rw [if_neg he, if_neg he]
  | opened deed executors =>
    rw [deed, World.executor, executors, List.getElem?_append_left (World.lt_of_pool? hpool)]
    exact hpool

/-- An executor without workers gets some only when it is opened. -/
theorem pool?_run_none (h : s.run w = some (reply, w')) (hpool : (w.executor e).pool? = none) :
    (w'.executor e).pool? = none ∨
      ∃ x, Deed.step s reply = .step (.openExecutor x) e ∧ w'.executor e = x := by
  cases onExecutors h with
  | same executors idle => exact .inl ((pool?_of_executors executors).trans hpool)
  | manual world resembles _ idle =>
    rw [world, World.apply_setExecutor Executor.pool? resembles.pool]
    exact .inl hpool
  | pool world acts => rw [world]; exact .inl (World.pool?_setPool_none hpool ..)
  | @opened x deed executors =>
    rcases Nat.lt_trichotomy e w.executors.length with hlt | rfl | hgt
    · rw [World.executor, executors, List.getElem?_append_left hlt]
      exact .inl hpool
    · refine .inr ⟨x, deed, ?_⟩
      rw [World.executor, executors, List.getElem?_concat_length]
      rfl
    · rw [World.executor, executors, List.getElem?_eq_none]
      · exact .inl rfl
      · rw [List.length_append, List.length_singleton]
        exact hgt

/-- Executors are never closed for good, and keep their traits. -/
theorem traits_run (h : s.run w = some (reply, w')) (hopen : e < w.executors.length) :
    e < w'.executors.length ∧ (w'.executor e).traits = (w.executor e).traits := by
  cases onExecutors h with
  | same executors => exact ⟨executors ▸ hopen, by rw [World.executor, executors]; rfl⟩
  | manual world resembles =>
    rw [world, World.apply_setExecutor Executor.traits resembles.traits, World.setExecutor,
      List.length_set]
    exact ⟨hopen, rfl⟩
  | pool world =>
    rw [world, World.traits_setPool, World.setPool, World.setExecutor, List.length_set]
    exact ⟨hopen, rfl⟩
  | opened deed executors =>
    rw [World.executor, executors, List.getElem?_append_left hopen, List.length_append]
    exact ⟨Nat.lt_add_right _ hopen, rfl⟩

/-- Senders are lent out as long as the pool has not been closed. -/
theorem borrow_reply {borrowed : Bool} (h : (borrow e : Step μ).run w = some (borrowed, w'))
    (hpool : (w.executor e).pool? = some p) : borrowed = p.accepting := by
  rw [run, World.pool_of_pool? hpool, Pool.borrow] at h
  cases haccepting : p.accepting <;> rw [haccepting] at h <;> cases h <;> rfl

/-- Jobs are accepted as long as any worker is left. -/
theorem send_reply {job : Job} {sent : Bool} (h : (send e job : Step μ).run w = some (sent, w'))
    (hpool : (w.executor e).pool? = some p) : sent = !p.deserted := by
  obtain ⟨⟨sent', q⟩, hsend, heq⟩ := Option.map_eq_some_iff.mp h
  cases heq
  rw [World.pool_of_pool? hpool, Pool.send] at hsend
  split at hsend
  · rename_i hdeserted
    cases hsend
    rw [hdeserted]
    rfl
  · rename_i hdeserted
    split at hsend <;> cases hsend
    rw [Bool.not_eq_true _ |>.mp hdeserted]
    rfl

end Step

namespace Machine

/-- What a turn does to executors and to what workers have to do. -/
inductive PoolTurn (β : Behaviour μ) (depth : Nat) (m m' : Machine μ α) :
    Turn → List (Deed μ) → Prop where
  | step {t : Turn} {s : Step μ} {next : s.Reply → Proc μ Unit} {reply : s.Reply}
      (program : m.program? t = some (.step s next))
      (world : s.run m.world = some (reply, m'.world))
      (workers : ∀ key, (m'.workers.get? key).isSome = (m.workers.get? key).isSome) :
      PoolTurn β depth m m' t [.step s reply]
  | take {e : ExecutorId} {i : Nat} {job : Job} {p : Pool Job} (idle : m.workers.get? (e, i) = none)
      (take : (m.world.pool e).take i = some (job, p)) (world : m'.world = m.world.setPool e p)
      (workers : ∀ key, m'.workers.get? key = if key = (e, i) then
        some (serve (β.client (β.perform depth (.worker e i))) e i job) else m.workers.get? key) :
      PoolTurn β depth m m' (.worker e i) [.took job]
  | finish {e : ExecutorId} {i : Nat} {p : Pool Job} (complete : m.workers.get? (e, i) = some (.done ()))
      (finish : (m.world.pool e).finish i = some p) (world : m'.world = m.world.setPool e p)
      (workers : ∀ key, m'.workers.get? key = if key = (e, i) then none else m.workers.get? key) :
      PoolTurn β depth m m' (.worker e i) []
  | leave {e : ExecutorId} {i : Nat} {p : Pool Job} (idle : m.workers.get? (e, i) = none)
      (leave : (m.world.pool e).leave i = some p) (world : m'.world = m.world.setPool e p)
      (workers : m'.workers = m.workers) : PoolTurn β depth m m' (.worker e i) []
  | aside {t : Turn} {deeds : List (Deed μ)} (quiet : deeds = [] ∨ deeds = [.woke])
      (executors : m'.world.executors = m.world.executors) (workers : m'.workers = m.workers) :
      PoolTurn β depth m m' t deeds

variable {β : Behaviour μ} {depth : Nat} {m m' : Machine μ α}

theorem poolTurn_worker {e : ExecutorId} {i : Nat} (h : m.turn β depth (.worker e i) = some m') :
    PoolTurn β depth m m' (.worker e i) (m.deeds (.worker e i)) := by
  rw [turn] at h
  cases hworker : m.workers.get? (e, i) with
  | none =>
    rw [hworker] at h
    have hidle : m.program? (.worker e i) = none := hworker
    dsimp only [begin] at h
    split at h
    · rename_i job p htake
      cases h
      have hdeeds : m.deeds (.worker e i) = [.took job] := by
        simp only [deeds, hidle, htake, Option.toList_some, List.map_singleton]
      rw [hdeeds]
      exact .take hworker htake rfl fun key => Keyed.get?_insert ..
    · rename_i htake
      obtain ⟨p, hleave, rfl⟩ := Option.map_eq_some_iff.mp h
      have hdeeds : m.deeds (.worker e i) = [] := by
        simp only [deeds, hidle, htake, Option.toList_none, List.map_nil]
      rw [hdeeds]
      exact .leave hworker hleave rfl rfl
  | some program =>
    rw [hworker] at h
    cases program with
    | done a =>
      obtain ⟨p, hfinish, rfl⟩ := Option.map_eq_some_iff.mp h
      rw [deeds_done (m := m) (t := .worker e i) hworker]
      exact .finish hworker hfinish rfl fun key => Keyed.get?_erase ..
    | never => cases h
    | step s next =>
      obtain ⟨⟨program, w'⟩, hadvance, heq⟩ := Option.map_eq_some_iff.mp h
      cases heq
      obtain ⟨_, _, reply, hstep, hrun, rfl⟩ := advance_eq_some hadvance
      cases hstep
      rw [deeds_step (m := m) (t := .worker e i) hworker hrun]
      refine .step hworker hrun fun key => ?_
      rw [Keyed.get?_insert]
      split
      · rename_i hkey
        rw [hkey, hworker]
        rfl
      · rfl

theorem poolTurn {t : Turn} (h : m.turn β depth t = some m') : PoolTurn β depth m m' t (m.deeds t) := by
  cases t with
  | worker e i => exact poolTurn_worker h
  | pass milliseconds =>
    cases h
    exact .aside (.inl rfl) rfl rfl
  | caller i =>
    rw [turn] at h
    cases hcaller : m.callers[i]? with
    | none => rw [hcaller] at h; cases h
    | some p =>
      rw [hcaller] at h
      obtain ⟨⟨p', w'⟩, hadvance, heq⟩ := Option.map_eq_some_iff.mp h
      cases heq
      obtain ⟨s, next, reply, rfl, hrun, rfl⟩ := advance_eq_some hadvance
      have hprogram : m.program? (.caller i) = some (.step s fun reply => (next reply).silently) := by
        rw [program?, hcaller]
        rfl
      rw [deeds_step hprogram hrun]
      exact .step hprogram hrun fun _ => rfl
  | task n =>
    rw [turn] at h
    cases htask : m.tasks.get? n with
    | none =>
      rw [htask] at h
      have hidle : m.program? (.task n) = none := by rw [program?, htask]; rfl
      have hdeeds : m.deeds (.task n) = [.woke] := by simp only [deeds, hidle]
      dsimp only [beginTask] at h
      split at h <;> cases h
      exact .aside (.inr hdeeds) rfl rfl
    | some p =>
      rw [htask] at h
      cases p with
      | done a =>
        cases h
        have hdone : m.program? (.task n) = some (.done ()) := by rw [program?, htask]; rfl
        exact .aside (.inl (deeds_done hdone)) rfl rfl
      | never => cases h
      | step s next =>
        obtain ⟨⟨p', w'⟩, hadvance, heq⟩ := Option.map_eq_some_iff.mp h
        cases heq
        obtain ⟨_, _, reply, hstep, hrun, rfl⟩ := advance_eq_some hadvance
        cases hstep
        have hprogram : m.program? (.task n) = some (.step s fun reply => (next reply).silently) := by
          rw [program?, htask]
          rfl
        rw [deeds_step hprogram hrun]
        exact .step hprogram hrun fun _ => rfl

end Machine

end PubSub
