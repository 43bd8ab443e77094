import PubSub.Proofs.WorkerPools

/-!
# Stored jobs

An executor keeps the jobs that it has accepted until somebody takes them.
-/
namespace PubSub

variable {μ α : Type} {w w' : World μ} {e : ExecutorId} {job : Job}

theorem Deed.mem_queue_onPool {p : Pool Job} (deed : Deed μ) (h : job ∈ p.queue) :
    job ∈ (deed.onPool e p).queue := by
  unfold onPool
  split
  · split <;> exact h
  · split
    · exact List.mem_append_left _ h
    · exact h
  all_goals first | exact h | (split <;> exact h)

/-- A change of a pool that loses nothing from its queue. -/
theorem World.mem_jobs_setPool {e' : ExecutorId} {p : Pool Job}
    (h : job ∈ (w.executor e).jobs) (hkeeps : job ∈ (w.pool e').queue → job ∈ p.queue) :
    job ∈ ((w.setPool e' p).executor e).jobs := by
  rw [setPool, executor_setExecutor_eq]
  split
  · rename_i he
    obtain ⟨rfl, -⟩ := he
    rw [pool] at hkeeps
    generalize w.executor e' = x at h hkeeps ⊢
    cases x with
    | manual m => exact h
    | _ => exact hkeeps h
  · exact h

namespace Step

variable {s : Step μ} {reply : s.Reply}

theorem mem_jobs_run (hrun : s.run w = some (reply, w')) (h : job ∈ (w.executor e).jobs) :
    job ∈ (w'.executor e).jobs ∨ Deed.Takes (.step s reply) job := by
  cases onExecutors hrun with
  | same executors =>
    rw [World.executor, executors]
    exact .inl h
  | @manual e' x world resembles keeps =>
    rw [world, World.executor_setExecutor_eq]
    split
    · rename_i he
      rw [← he.1] at h
      refine (keeps job h).imp_right ?_
      rintro ⟨place, hpick⟩
      exact .inr ⟨e', place, hpick⟩
    · exact .inl h
  | @pool e' f world acts =>
    rw [world]
    refine .inl (World.mem_jobs_setPool h fun hjob => ?_)
    have hqueue := Deed.mem_queue_onPool (e := e') (Deed.step s reply) hjob
    rwa [acts, if_pos rfl] at hqueue
  | opened deed executors =>
    have hopen : e < w.executors.length := by
      by_contra hlen
      rw [World.executor_eq_absent (Nat.le_of_not_lt hlen)] at h
      cases h
    rw [World.executor, executors, List.getElem?_append_left hopen]
    exact .inl h

/-- What an executor accepts it has then. -/
theorem mem_jobs_of_accepted (hrun : s.run w = some (reply, w'))
    (haccepted : Deed.step s reply = .step (.offer e job) true ∨
      Deed.step s reply = .step (.send e job) true) : job ∈ (w'.executor e).jobs := by
  rcases haccepted with heq | heq
  · cases heq
    have hoffer : ((w.executor e).offer job).1 = true := congrArg Prod.fst (Option.some.inj hrun)
    have hworld : w.setExecutor e ((w.executor e).offer job).2 = w' :=
      congrArg Prod.snd (Option.some.inj hrun)
    have hopen : e < w.executors.length := by
      by_contra hlen
      rw [World.executor_eq_absent (Nat.le_of_not_lt hlen)] at hoffer
      cases hoffer
    rw [← hworld, World.executor_setExecutor_eq, if_pos ⟨rfl, hopen⟩]
    generalize w.executor e = x at hoffer ⊢
    cases x with
    | manual m =>
      rw [Executor.offer] at hoffer ⊢
      split at hoffer <;> first | cases hoffer; done | simp [*, Executor.jobs]
    | _ => cases hoffer
  · cases heq
    cases hpool : (w.executor e).pool? with
    | none =>
      have hpool : w.pool e = .start 0 none := by
        rw [World.pool, hpool]
        rfl
      rw [run, hpool] at hrun
      cases hrun
    | some p =>
      have hafter := pool?_run hrun hpool
      rw [Deed.onPool, if_pos rfl] at hafter
      generalize w'.executor e = x at hafter ⊢
      cases x with
      | manual m => cases hafter
      | _ =>
        cases hafter
        exact List.mem_append_right _ (List.mem_singleton_self job)

end Step

namespace Machine

variable {β : Behaviour μ} {depth : Nat} {m m' : Machine μ α}

theorem PoolTurn.mem_jobs {t : Turn} {deeds : List (Deed μ)} (hturn : PoolTurn β depth m m' t deeds)
    (h : job ∈ (m.world.executor e).jobs) :
    job ∈ (m'.world.executor e).jobs ∨ ∃ deed ∈ deeds, deed.Takes job := by
  cases hturn with
  | step program world =>
    exact (Step.mem_jobs_run world h).imp_right fun htakes => ⟨_, List.mem_singleton_self _, htakes⟩
  | @take e' i job' p idle take world =>
    obtain ⟨rest, -, hqueue, rfl⟩ := Pool.take_eq_some take
    by_cases hsame : job = job'
    · exact .inr ⟨_, List.mem_singleton_self _, .inl (hsame ▸ rfl)⟩
    · rw [world]
      refine .inl (World.mem_jobs_setPool h fun hjob => ?_)
      rw [hqueue] at hjob
      exact (List.mem_cons.mp hjob).resolve_left hsame
  | finish _ finish world =>
    obtain ⟨_, _, rfl⟩ := Pool.finish_eq_some finish
    rw [world]
    exact .inl (World.mem_jobs_setPool h id)
  | leave _ leave world =>
    obtain ⟨_, _, _, _, rfl⟩ := Pool.leave_eq_some leave
    rw [world]
    exact .inl (World.mem_jobs_setPool h id)
  | aside _ executors =>
    rw [World.executor, executors]
    exact .inl h

/-- A stored job stays where it is until somebody takes it. -/
theorem Course.mem_jobs {later : Trace μ} (hcourse : m.Course β depth later m')
    (h : job ∈ (m.world.executor e).jobs) :
    job ∈ (m'.world.executor e).jobs ∨ ∃ t deed, (t, deed) ∈ later ∧ deed.Takes job := by
  induction hcourse with
  | now => exact .inl h
  | @turn later m₁ m₂ t _ moved ih =>
    rcases ih with hstays | ⟨u, deed, hmem, htakes⟩
    · rcases (poolTurn moved).mem_jobs hstays with hstays' | ⟨deed, hmem, htakes⟩
      · exact .inl hstays'
      · exact .inr ⟨t, deed, List.mem_append_left _ (List.mem_map_of_mem hmem), htakes⟩
    · exact .inr ⟨u, deed, List.mem_append_right _ hmem, htakes⟩

end Machine

end PubSub
