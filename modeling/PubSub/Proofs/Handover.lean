import PubSub.Proofs.Paths

/-!
# Handing deliveries over

An executor with one worker, and a post that puts its deliveries into the queue of the executor. What the
worker does meanwhile does not depend on it.
-/
namespace PubSub

open Program

variable {μ α : Type}

def Job.delivery? : Job → Option Delivery
  | .delivery d _ => some d
  | .work _ _ => none

/-- The executor has not been shut down. It has one worker, which is in this state, and these deliveries
wait for it. -/
structure World.Staffed (w : World μ) (e : ExecutorId) (waiting : List Delivery)
    (worker : Worker Job) : Prop where
  pooled : (w.executor e).pool?.isSome = true
  accepting : (w.pool e).accepting = true
  bound : (w.pool e).bound ≠ some 0
  queue : (w.pool e).queue.map Job.delivery? = waiting.map some
  workers : (w.pool e).workers = [worker]

section Staffed

variable {v w : World μ} {e : ExecutorId} {d : Delivery} {ds ds' : List Delivery} {job : Job}
  {worker worker' : Worker Job} {p : Pool Job}

theorem World.executor_setPool (h : (w.executor e).pool?.isSome = true) (p : Pool Job) :
    (w.setPool e p).executor e = (w.executor e).setPool p := by
  have he : e < w.executors.length := by
    by_contra hlen
    rw [executor_eq_absent (Nat.le_of_not_lt hlen)] at h
    cases h
  rw [World.executor, World.setPool, World.setExecutor, List.getElem?_set_self he]
  rfl

theorem Executor.pool?_setPool {x : Executor} (h : x.pool?.isSome = true) (p : Pool Job) :
    (x.setPool p).pool? = some p := by
  cases x with
  | manual => cases h
  | _ => rfl

theorem World.pool_setPool (h : (w.executor e).pool?.isSome = true) (p : Pool Job) :
    (w.setPool e p).pool e = p := by
  rw [World.pool, executor_setPool h, Executor.pool?_setPool h]
  rfl

namespace World.Staffed

theorem of_executors (h : w.Staffed e ds worker) (hv : v.executors = w.executors) :
    v.Staffed e ds worker := by
  have hexecutor : v.executor e = w.executor e := by rw [executor, hv]; rfl
  have hpool : v.pool e = w.pool e := by rw [World.pool, hexecutor]; rfl
  exact ⟨hexecutor ▸ h.pooled, hpool ▸ h.accepting, hpool ▸ h.bound, hpool ▸ h.queue, hpool ▸ h.workers⟩

theorem worker_eq (h : w.Staffed e ds worker) (h' : w.Staffed e ds' worker') : worker = worker' :=
  (List.cons.inj (h.workers.symm.trans h'.workers)).1

theorem setPool (h : w.Staffed e ds worker) (haccepting : p.accepting = true)
    (hbound : p.bound = (w.pool e).bound) (hqueue : p.queue.map Job.delivery? = ds'.map some)
    (hworkers : p.workers = [worker']) : (w.setPool e p).Staffed e ds' worker' := by
  have hpool := pool_setPool h.pooled p
  refine ⟨?_, hpool.symm ▸ haccepting, ?_, hpool.symm ▸ hqueue, hpool.symm ▸ hworkers⟩
  · rw [executor_setPool h.pooled, Executor.pool?_setPool h.pooled]
    rfl
  · rw [hpool, hbound]
    exact h.bound

/-- An idle worker takes what has waited longest. -/
theorem exists_take (h : w.Staffed e (d :: ds) .idle) : ∃ name p,
    (w.pool e).take 0 = some (.delivery d name, p) ∧
      (w.setPool e p).Staffed e ds (.busy (.delivery d name)) := by
  obtain ⟨job, rest, hqueue⟩ : ∃ job rest, (w.pool e).queue = job :: rest :=
    List.exists_cons_of_ne_nil fun hnil => by
      have hmap := h.queue
      rw [hnil] at hmap
      cases hmap
  have hmap := h.queue
  rw [hqueue, List.map_cons, List.map_cons, List.cons.injEq] at hmap
  cases job with
  | work label body => cases hmap.1
  | delivery d' name =>
    cases hmap.1
    refine ⟨name, { w.pool e with queue := rest, workers := [.busy (.delivery d name)] }, ?_,
      h.setPool h.accepting rfl hmap.2 rfl⟩
    rw [Pool.take, hqueue, h.workers]
    rfl

/-- If nothing waits, an idle worker does nothing. -/
theorem no_turn (h : w.Staffed e [] .idle) :
    (w.pool e).take 0 = none ∧ (w.pool e).leave 0 = none := by
  have hqueue : (w.pool e).queue = [] := List.map_eq_nil_iff.mp h.queue
  constructor
  · rw [Pool.take, hqueue, h.workers]
    rfl
  · rw [Pool.leave, hqueue, h.workers, Pool.isOpen, h.accepting]
    rfl

theorem exists_finish (h : w.Staffed e ds (.busy job)) :
    ∃ p, (w.pool e).finish 0 = some p ∧ (w.setPool e p).Staffed e ds .idle := by
  refine ⟨{ w.pool e with workers := [.idle] }, ?_, h.setPool h.accepting rfl h.queue rfl⟩
  rw [Pool.finish, h.workers]
  rfl

/-- The executor is at rest just when nothing waits and the worker has nothing to do. -/
theorem isAtRest_iff (h : w.Staffed e ds worker) :
    (w.pool e).isAtRest (fun _ => true) = true ↔ ds = [] ∧ ∀ job, worker ≠ .busy job := by
  have hqueue : (w.pool e).queue.isEmpty = true ↔ ds = [] := by
    rw [List.isEmpty_iff, ← List.map_eq_nil_iff (f := Job.delivery?), h.queue, List.map_eq_nil_iff]
  rw [Pool.isAtRest, h.workers, Bool.and_eq_true, hqueue]
  cases worker <;> simp

theorem exists_borrow (h : w.Staffed e ds worker) :
    ∃ p, (w.pool e).borrow = some p ∧ (w.setPool e p).Staffed e ds worker :=
   ⟨{ w.pool e with borrowed := (w.pool e).borrowed + 1 }, if_pos h.accepting,
    h.setPool h.accepting rfl h.queue h.workers⟩

theorem giveBack (h : w.Staffed e ds worker) :
    (w.setPool e (w.pool e).giveBack).Staffed e ds worker :=
  h.setPool h.accepting rfl h.queue h.workers

/-- What is sent waits behind the others. -/
theorem of_send (h : w.Staffed e ds worker) (hworker : worker ≠ .left)
    (hjob : job.delivery? = some d) {sent : Bool} (hsend : (w.pool e).send job = some (sent, p)) :
    sent = true ∧ (w.setPool e p).Staffed e (ds ++ [d]) worker := by
  have hdeserted : (w.pool e).deserted = false := by
    rw [Pool.deserted, h.workers]
    cases worker with
    | left => exact absurd rfl hworker
    | _ => rfl
  rw [Pool.send, hdeserted, if_neg Bool.false_ne_true] at hsend
  split at hsend
  · cases hsend
    refine ⟨rfl, h.setPool h.accepting rfl ?_ h.workers⟩
    rw [List.map_append, List.map_append, h.queue, List.map_singleton, List.map_singleton, hjob]
  · cases hsend

theorem exists_send (h : w.Staffed e [] worker) (job : Job) :
    ∃ sent p, (w.pool e).send job = some (sent, p) := by
  have hroom : (w.pool e).hasRoom = true := by
    rw [Pool.hasRoom, List.map_eq_nil_iff.mp h.queue]
    cases hbound : (w.pool e).bound with
    | none => rfl
    | some bound =>
      have hne : bound ≠ 0 := fun hzero => h.bound (hzero ▸ hbound)
      exact decide_eq_true (Nat.pos_of_ne_zero hne)
  rw [Pool.send, hroom, if_pos rfl]
  split <;> exact ⟨_, _, rfl⟩

end World.Staffed

theorem World.matches_setPool (w : World μ) (e : ExecutorId) (p : Pool Job) :
    (w.setPool e p).Matches w := w.matches_with _ w.time

end Staffed

/-- What is left to do hands these deliveries to an executor with threads of its own, and answers that all
is well. -/
inductive Hands (e : ExecutorId) : List Delivery → Proc μ Outcome → Prop where
  | done : Hands e [] (.done .ok)
  | record {todo : List Delivery} {t : Thread} {o : Occurrence} {next : Unit → Proc μ Outcome}
      (quiet : o.isCallback = false) (rest : Hands e todo (next ())) :
      Hands e todo (.step (.record t o) next)
  | readExecutor {todo : List Delivery} {next : Executor → Proc μ Outcome}
      (rest : ∀ x : Executor, x.pool?.isSome = true → Hands e todo (next x)) :
      Hands e todo (.step (.readExecutor e) next)
  | borrow {todo : List Delivery} {next : Bool → Proc μ Outcome} (rest : Hands e todo (next true)) :
      Hands e todo (.step (.borrow e) next)
  | send {d : Delivery} {todo : List Delivery} {job : Job} {next : Bool → Proc μ Outcome}
      (first : job.delivery? = some d) (rest : Hands e todo (next true)) :
      Hands e (d :: todo) (.step (.send e job) next)
  | giveBack {todo : List Delivery} {next : Unit → Proc μ Outcome} (rest : Hands e todo (next ())) :
      Hands e todo (.step (.giveBack e) next)

section Hands

variable {e : ExecutorId} {todo : List Delivery} {s : Step μ} {next : s.Reply → Proc μ Outcome}
  {w w' : World μ}

theorem hands_submitAll (client : Client μ) (t : Thread) (ds : List Delivery)
    {f : Outcome → Proc μ Outcome} (hf : Hands e [] (f .ok)) :
    Hands e ds ((submitAll client t e ds).bind f) := by
  induction ds with
  | nil => exact hf
  | cons d ds ih =>
    refine .readExecutor fun x _ => .record rfl (.readExecutor fun y hy => ?_)
    cases y with
    | manual => cases hy
    | _ => exact .borrow (.send rfl (.giveBack ih))

theorem hands_delivering (client : Client μ) (t : Thread) (id : PostId) (ds : List Delivery) {bus : Bus}
    (hdiscipline : bus.discipline = .executor e) : Hands e ds (delivering client t id ds bus) := by
  simp only [delivering, hdiscipline]
  exact hands_submitAll client t ds (.record rfl .done)

/-- Whatever the post does, the worker goes on as if nothing had happened. -/
theorem Hands.of_step (h : Hands e todo (.step s next)) {reply : s.Reply}
    (hrun : s.run w = some (reply, w')) {ds : List Delivery} {worker : Worker Job}
    (hstaffed : w.Staffed e ds worker) (hworker : worker ≠ .left) :
    w'.Matches w ∧ ∃ sent rest, todo = sent ++ rest ∧ Hands e rest (next reply) ∧
      w'.Staffed e (ds ++ sent) worker := by
  cases h with
  | @record _ t o _ quiet rest =>
    cases hrun
    refine ⟨w.matches_record t quiet, [], todo, rfl, rest, ?_⟩
    rw [List.append_nil]
    exact hstaffed.of_executors rfl
  | readExecutor rest =>
    cases hrun
    refine ⟨.refl w, [], todo, rfl, rest _ hstaffed.pooled, ?_⟩
    rwa [List.append_nil]
  | borrow rest =>
    obtain ⟨p, hborrow, hstaffed'⟩ := hstaffed.exists_borrow
    rw [Step.run, hborrow] at hrun
    cases hrun
    refine ⟨w.matches_setPool e p, [], todo, rfl, rest, ?_⟩
    rwa [List.append_nil]
  | send first rest =>
    obtain ⟨⟨sent, p⟩, hsend, heq⟩ := Option.map_eq_some_iff.mp hrun
    cases heq
    obtain ⟨rfl, hstaffed'⟩ := hstaffed.of_send hworker first hsend
    exact ⟨w.matches_setPool e p, [_], _, rfl, rest, hstaffed'⟩
  | giveBack rest =>
    cases hrun
    refine ⟨w.matches_setPool e _, [], todo, rfl, rest, ?_⟩
    rw [List.append_nil]
    exact hstaffed.giveBack

/-- If nothing waits, the post can go on. -/
theorem Hands.exists_run (h : Hands e todo (.step s next)) {worker : Worker Job}
    (hstaffed : w.Staffed e [] worker) : ∃ reply w', s.run w = some (reply, w') := by
  cases h with
  | send =>
    obtain ⟨sent, p, hsend⟩ := hstaffed.exists_send _
    exact ⟨sent, w.setPool e p, by rw [Step.run, hsend]; rfl⟩
  | borrow =>
    obtain ⟨p, hborrow, -⟩ := hstaffed.exists_borrow
    exact ⟨true, w.setPool e p, by rw [Step.run, hborrow]⟩
  | _ => exact ⟨_, _, rfl⟩

end Hands

end PubSub
