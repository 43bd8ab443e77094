import PubSub.Proofs.Workforce

/-!
# The ledger of a worker pool

What a trace shows of the jobs of an executor, and how this agrees at any moment with the state of
its pool: with the queue, with the senders that are out, and with what its workers have to do.
-/
namespace PubSub

variable {μ α : Type}

namespace Deed

/-- The job that a deed puts into the queue of an executor. -/
def sent? (e : ExecutorId) : Deed μ → Option Job
  | .step (.send e' job) true => if e' = e then some job else none
  | _ => none

/-- The worker of an executor that starts a job by this deed, and the job. -/
def started? (e : ExecutorId) : Turn → Deed μ → Option (Nat × Job)
  | .worker e' i, .took job => if e' = e then some (i, job) else none
  | _, _ => none

theorem sent?_eq_some {e : ExecutorId} {deed : Deed μ} {job : Job} (h : deed.sent? e = some job) :
    deed = .step (.send e job) true := by
  unfold sent? at h
  split at h
  · obtain ⟨rfl, heq⟩ := Option.ite_none_right_eq_some.mp h
    cases heq
    rfl
  · cases h

theorem started?_step (e : ExecutorId) (t : Turn) (s : Step μ) (reply : s.Reply) :
    started? e t (.step s reply) = none := by
  cases t <;> rfl

theorem started?_woke (e : ExecutorId) (t : Turn) : started? e t (.woke : Deed μ) = none := by
  cases t <;> rfl

theorem started?_eq_some {e : ExecutorId} {t : Turn} {deed : Deed μ} {i : Nat} {job : Job}
    (h : deed.started? e t = some (i, job)) : t = .worker e i ∧ deed = .took job := by
  unfold started? at h
  split at h
  · obtain ⟨rfl, heq⟩ := Option.ite_none_right_eq_some.mp h
    cases heq
    exact ⟨rfl, rfl⟩
  · cases h

variable (deed : Deed μ) (e : ExecutorId) (p : Pool Job)

theorem queue_onPool : (deed.onPool e p).queue = p.queue ++ (deed.sent? e).toList := by
  cases deed with
  | took | woke => exact (List.append_nil _).symm
  | step s reply =>
    cases s with
    | send e' job =>
      cases reply with
      | false => exact (List.append_nil _).symm
      | true =>
        simp only [onPool, sent?]
        split
        · rfl
        · exact (List.append_nil _).symm
    | borrow e' =>
      cases reply with
      | false => exact (List.append_nil _).symm
      | true => simp only [onPool]; split <;> exact (List.append_nil _).symm
    | giveBack | close | claim => simp only [onPool]; split <;> exact (List.append_nil _).symm
    | _ => exact (List.append_nil _).symm

/-- Steps put nobody to work. -/
theorem workers_onPool : (deed.onPool e p).workers = p.workers := by
  unfold onPool
  split <;> first | rfl | split <;> rfl

/-- A pool that has been closed stays closed. -/
theorem accepting_onPool (h : p.accepting = false) : (deed.onPool e p).accepting = false := by
  unfold onPool
  split <;> first | exact h | split <;> first | exact h | rfl

/-- A pool is closed by a shutdown only. -/
theorem accepting_onPool_eq_false (h : (deed.onPool e p).accepting = false) :
    p.accepting = false ∨ deed = .step (.close e) () := by
  cases deed with
  | took | woke => exact .inl h
  | step s reply =>
    cases s with
    | send e' job =>
      cases reply with
      | false => exact .inl h
      | true => simp only [onPool] at h; split at h <;> exact .inl h
    | borrow e' =>
      cases reply with
      | false => exact .inl h
      | true => simp only [onPool] at h; split at h <;> exact .inl h
    | close e' =>
      simp only [onPool] at h
      split at h
      · rename_i he
        exact .inr (he ▸ rfl)
      · exact .inl h
    | giveBack | claim => simp only [onPool] at h; split at h <;> exact .inl h
    | _ => exact .inl h

end Deed

namespace Trace

variable (trace : Trace μ) (e : ExecutorId)

/-- The jobs that the workers of an executor have been handed, in this order. -/
def accepted : List Job := trace.reverse.filterMap fun (_, deed) => deed.sent? e

/-- The jobs that the workers of an executor have started, each with its worker, in this order. -/
def started : List (Nat × Job) := trace.reverse.filterMap fun (t, deed) => deed.started? e t

theorem accepted_append (later : Trace μ) :
    accepted (later ++ trace) e = trace.accepted e ++ accepted later e := by
  rw [accepted, List.reverse_append, List.filterMap_append]
  rfl

theorem accepted_singleton (t : Turn) (deed : Deed μ) :
    accepted [(t, deed)] e = (deed.sent? e).toList := by
  simp only [accepted, List.reverse_singleton, List.filterMap_cons, List.filterMap_nil]
  cases deed.sent? e <;> rfl

theorem started_append (later : Trace μ) :
    started (later ++ trace) e = trace.started e ++ started later e := by
  rw [started, List.reverse_append, List.filterMap_append]
  rfl

theorem started_singleton (t : Turn) (deed : Deed μ) :
    started [(t, deed)] e = (deed.started? e t).toList := by
  simp only [started, List.reverse_singleton, List.filterMap_cons, List.filterMap_nil]
  cases deed.started? e t <;> rfl

theorem mem_started {i : Nat} {job : Job} :
    (i, job) ∈ trace.started e ↔ (.worker e i, .took job) ∈ trace := by
  rw [started, List.mem_filterMap]
  constructor
  · rintro ⟨⟨t, deed⟩, hmem, hstarted⟩
    obtain ⟨rfl, rfl⟩ := Deed.started?_eq_some hstarted
    exact List.mem_reverse.mp hmem
  · exact fun hmem => ⟨_, List.mem_reverse.mpr hmem, if_pos rfl⟩

theorem mem_accepted {job : Job} :
    job ∈ trace.accepted e ↔ ∃ t, (t, .step (.send e job) true) ∈ trace := by
  rw [accepted, List.mem_filterMap]
  constructor
  · rintro ⟨⟨t, deed⟩, hmem, hsent⟩
    obtain rfl := Deed.sent?_eq_some hsent
    exact ⟨t, List.mem_reverse.mp hmem⟩
  · rintro ⟨t, hmem⟩
    exact ⟨_, List.mem_reverse.mpr hmem, if_pos rfl⟩

end Trace

namespace Access

/-- Whether a thread has a sender of this executor. -/
def lends (e : ExecutorId) (g : Access) : Nat := if g.sender = some e then 1 else 0

/-- A thread that borrows a sender or gives one back is the only one to change how many are out. -/
theorem borrowed_onPool {g : Access} {s : Step μ} (hallows : g.Allows s) (reply : s.Reply)
    {e : ExecutorId} {p : Pool Job} (hlent : g.lends e ≤ p.borrowed) :
    ((Deed.step s reply).onPool e p).borrowed + g.lends e =
      p.borrowed + (g.after s reply).lends e := by
  cases s with
  | readExecutor e' =>
    have hsame := g.sender_after_readExecutor (μ := μ) e' reply
    simp only [lends, hsame]
    rfl
  | borrow e' =>
    cases reply with
    | false => rfl
    | true =>
      have hnone : g.sender = none := hallows.1
      simp only [lends, after, hnone, Deed.onPool, Option.some.injEq, reduceCtorEq, if_false]
      split <;> rfl
  | giveBack e' =>
    have hsome : g.sender = some e' := hallows
    simp only [lends, after, hsome, Deed.onPool, Option.some.injEq, reduceCtorEq, if_false]
      at hlent ⊢
    split
    · rename_i he
      rw [if_pos he] at hlent
      simp only [Pool.giveBack]
      omega
    · rfl
  | send e' job =>
    have hqueue : ((Deed.step (.send e' job) reply : Deed μ).onPool e p).borrowed = p.borrowed := by
      cases reply with
      | false => rfl
      | true => simp only [Deed.onPool]; split <;> rfl
    rw [hqueue]
    rfl
  | close e' => simp only [Deed.onPool]; split <;> rfl
  | claim e' => simp only [Deed.onPool]; split <;> rfl
  | _ => rfl

/-- A thread that goes on from here has borrowed senders only where it has seen workers. -/
theorem mem_known_after {g : Access} {s : Step μ} (hallows : g.Allows s) (reply : s.Reply)
    (h : ∀ e, g.sender = some e → e ∈ g.known) (e : ExecutorId)
    (hsender : (g.after s reply).sender = some e) : e ∈ (g.after s reply).known := by
  cases s with
  | readExecutor e' =>
    have hold : e ∈ g.known := h e ((g.sender_after_readExecutor (μ := μ) e' reply).symm.trans hsender)
    simp only [after]
    split
    · exact List.mem_cons_of_mem _ hold
    · exact hold
  | borrow e' =>
    cases reply with
    | false => exact h e hsender
    | true =>
      cases hsender
      exact hallows.2
  | giveBack e' => cases hsender
  | _ => exact h e hsender

/-- What a thread has seen, it has read or knew before. -/
theorem known_after {g : Access} {s : Step μ} {reply : s.Reply} {e : ExecutorId}
    (h : e ∈ (g.after s reply).known) : e ∈ g.known ∨
      ∃ x : Executor, Deed.step s reply = .step (.readExecutor e) x ∧ x.pool?.isSome = true := by
  cases s with
  | readExecutor e' =>
    simp only [after] at h
    split at h
    · rename_i hpool
      rcases List.mem_cons.mp h with rfl | hold
      · exact .inr ⟨reply, rfl, hpool⟩
      · exact .inl hold
    · exact .inl h
  | borrow e' => cases reply <;> exact .inl h
  | _ => exact .inl h

/-- A job comes into a queue only by a sender. -/
theorem sent?_eq_none {g : Access} {s : Step μ} (hallows : g.Allows s) (reply : s.Reply)
    {e : ExecutorId} (hsender : g.sender ≠ some e) : (Deed.step s reply).sent? e = none := by
  cases s with
  | send e' job =>
    have hsome : g.sender = some e' := hallows
    cases reply with
    | false => rfl
    | true =>
      refine if_neg ?_
      rintro rfl
      exact hsender hsome
  | _ => rfl

/-- A thread gets a sender by borrowing it. -/
theorem sender_after {g : Access} {s : Step μ} {reply : s.Reply} {e : ExecutorId}
    (h : (g.after s reply).sender = some e) :
    g.sender = some e ∨ Deed.step s reply = .step (.borrow e) true := by
  cases s with
  | readExecutor e' => exact .inl ((g.sender_after_readExecutor (μ := μ) e' reply).symm.trans h)
  | borrow e' =>
    cases reply with
    | false => exact .inl h
    | true =>
      cases h
      exact .inr rfl
  | giveBack e' => cases h
  | _ => exact .inl h

end Access

namespace Machine.PoolTurn

variable {β : Behaviour μ} {depth : Nat} {m m' : Machine μ α} {t : Turn} {deeds : List (Deed μ)}
  {e : ExecutorId} {p : Pool Job}

/-- The workers of an executor do not go away. -/
theorem exists_pool (h : PoolTurn β depth m m' t deeds) (hpool : (m.world.executor e).pool? = some p) :
    ∃ p', (m'.world.executor e).pool? = some p' := by
  cases h with
  | step _ world => exact ⟨_, Step.pool?_run world hpool⟩
  | take _ _ world => exact ⟨_, world ▸ World.pool?_setPool hpool ..⟩
  | finish _ _ world => exact ⟨_, world ▸ World.pool?_setPool hpool ..⟩
  | leave _ _ world => exact ⟨_, world ▸ World.pool?_setPool hpool ..⟩
  | aside _ executors => exact ⟨p, (Step.pool?_of_executors executors).trans hpool⟩

end Machine.PoolTurn

/-- Threads have seen workers only where there are some, and have senders only of executors of which
they have seen the workers. -/
structure Access.Sound (trace : Trace μ) (m : Machine μ α) (t : Turn) : Prop where
  known : ∀ e ∈ (conduct.standing trace t).known, ∃ p, (m.world.executor e).pool? = some p
  sender : ∀ e, (conduct.standing trace t).sender = some e → e ∈ (conduct.standing trace t).known

variable {β : Behaviour μ} {depth : Nat} {memory : μ} {body : Body μ α} {trace : Trace μ}
  {m m' : Machine μ α}

namespace Access

theorem standing_step (trace : Trace μ) (t u : Turn) (s : Step μ) (reply : s.Reply) :
    conduct.standing ((u, .step s reply) :: trace) t =
      if t = u then (conduct.standing trace u).after s reply else conduct.standing trace t :=
  conduct.standing_cons trace u t (.step s reply)

/-- Only steps change what a thread has seen and borrowed. -/
theorem standing_cons_of_eq {trace : Trace μ} {u : Turn} {deed : Deed μ}
    (h : ∀ g : Access, conduct.next u g deed = g) (t : Turn) :
    conduct.standing ((u, deed) :: trace) t = conduct.standing trace t := by
  rw [conduct.standing_cons, h]
  split
  · rename_i ht
    rw [ht]
  · rfl

theorem Sound.step {t u : Turn} {s : Step μ} {reply : s.Reply} (h : Sound trace m t)
    (hallows : (conduct.standing trace u).Allows s)
    (hrun : s.run m.world = some (reply, m'.world)) : Sound ((u, .step s reply) :: trace) m' t := by
  have hkept : ∀ e, (∃ p, (m.world.executor e).pool? = some p) →
      ∃ p, (m'.world.executor e).pool? = some p := by
    rintro e ⟨p, hp⟩
    exact ⟨_, Step.pool?_run hrun hp⟩
  by_cases ht : t = u
  · subst ht
    have hstanding := standing_step trace t t s reply
    rw [if_pos rfl] at hstanding
    constructor <;> rw [hstanding]
    · intro e he
      rcases known_after he with hold | ⟨x, hdeed, hx⟩
      · exact hkept e (h.known e hold)
      · cases hdeed
        have hread : m.world.executor e = x := congrArg Prod.fst (Option.some.inj hrun)
        exact hkept e (hread ▸ Option.isSome_iff_exists.mp hx)
    · exact mem_known_after hallows reply h.sender
  · have hstanding := standing_step trace t u s reply
    rw [if_neg ht] at hstanding
    constructor <;> rw [hstanding]
    · exact fun e he => hkept e (h.known e he)
    · exact h.sender

theorem sound (h : Run β depth memory body trace m) (t : Turn) : Sound trace m t := by
  induction h with
  | start => exact ⟨fun _ => nofun, fun _ => nofun⟩
  | @turn trace m m' u before moved ih =>
    have hturn := Machine.poolTurn moved
    have hkept : ∀ e ∈ (conduct.standing trace t).known,
        ∃ p, (m'.world.executor e).pool? = some p := by
      intro e he
      obtain ⟨p, hp⟩ := ih.known e he
      exact hturn.exists_pool hp
    have hsame : ∀ deed : Deed μ, (∀ g : Access, conduct.next u g deed = g) →
        Sound ((u, deed) :: trace) m' t := by
      intro deed hdeed
      have hstanding : conduct.standing ((u, deed) :: trace) t = conduct.standing trace t :=
        standing_cons_of_eq hdeed t
      exact ⟨hstanding ▸ hkept, hstanding ▸ ih.sender⟩
    generalize m.deeds u = deeds at hturn
    cases hturn with
    | step program world => exact ih.step ((orderly before u).of_some program).1 world
    | take => exact hsame _ fun _ => rfl
    | finish => exact ⟨hkept, ih.sender⟩
    | leave => exact ⟨hkept, ih.sender⟩
    | aside quiet =>
      rcases quiet with rfl | rfl
      · exact ⟨hkept, ih.sender⟩
      · exact hsame _ fun _ => rfl

theorem lends_base (e : ExecutorId) (t : Turn) : lends e ((conduct (μ := μ)).base t) = 0 := by
  rw [lends, if_neg nofun]

/-- How many senders of an executor are out. -/
def lent (e : ExecutorId) (trace : Trace μ) : Nat := (conduct.roll trace).total (lends e)

theorem lends_le_lent (e : ExecutorId) (trace : Trace μ) (t : Turn) :
    (conduct.standing trace t).lends e ≤ lent e trace := Roll.le_total _ (lends_base e t)

theorem lent_step (e : ExecutorId) (trace : Trace μ) (t : Turn) (s : Step μ) (reply : s.Reply) :
    lent e ((t, .step s reply) :: trace) + (conduct.standing trace t).lends e =
      lent e trace + ((conduct.standing trace t).after s reply).lends e :=
  Roll.total_put _ _ (lends_base e t)

theorem lent_cons_of_eq (e : ExecutorId) {trace : Trace μ} {t : Turn} {deed : Deed μ}
    (h : ∀ g : Access, conduct.next t g deed = g) : lent e ((t, deed) :: trace) = lent e trace := by
  have hput := Roll.total_put (conduct.roll trace) (conduct.next t (conduct.standing trace t) deed)
    (lends_base (μ := μ) e t)
  rw [lent, Conduct.roll]
  exact Nat.add_right_cancel (hput.trans (congrArg _ (congrArg (lends e) (h _))))

end Access

/-- The ledger of an executor that has workers. -/
structure Ledger (e : ExecutorId) (trace : Trace μ) (m : Machine μ α) (p : Pool Job) : Prop where
  order : trace.accepted e = (trace.started e).map Prod.snd ++ p.queue
  lent : p.borrowed = Access.lent e trace
  busy : ∀ i, (m.workers.get? (e, i)).isSome = true ↔ ∃ job, p.workers[i]? = some (.busy job)
  vacated : ∀ i : Nat, p.workers[i]? = some .left → p.queue = [] ∧ p.accepting = false ∧ p.borrowed = 0
  closed : p.accepting = false → ∃ u, (u, .step (.close e) ()) ∈ trace
  staffed : p.workers ≠ []

/-- Nobody has anything to do with an executor that has no workers. -/
structure Unstaffed (e : ExecutorId) (trace : Trace μ) (m : Machine μ α) : Prop where
  accepted : trace.accepted e = []
  started : trace.started e = []
  lent : Access.lent e trace = 0
  busy : ∀ i, m.workers.get? (e, i) = none

namespace Pool

variable {p p' : Pool Job} {i : Nat} {job : Job}

theorem take_eq_some (h : p.take i = some (job, p')) : ∃ rest, p.workers[i]? = some .idle ∧
    p.queue = job :: rest ∧
      p' = { p with queue := rest, workers := p.workers.set i (.busy job) } := by
  rw [take] at h
  split at h <;> cases h
  rename_i rest hidle hqueue
  exact ⟨rest, hidle, hqueue, rfl⟩

theorem finish_eq_some (h : p.finish i = some p') : ∃ job, p.workers[i]? = some (.busy job) ∧
    p' = { p with workers := p.workers.set i .idle } := by
  rw [finish] at h
  split at h <;> cases h
  rename_i job hbusy
  exact ⟨job, hbusy, rfl⟩

theorem leave_eq_some (h : p.leave i = some p') : p.workers[i]? = some .idle ∧ p.queue = [] ∧
    p.accepting = false ∧ p.borrowed = 0 ∧ p' = { p with workers := p.workers.set i .left } := by
  rw [leave] at h
  split at h
  · rename_i hidle hqueue
    split at h <;> cases h
    rename_i hopen
    simp only [isOpen, Bool.or_eq_true, decide_eq_true_eq, not_or, Bool.not_eq_true] at hopen
    exact ⟨hidle, hqueue, hopen.1, by omega, rfl⟩
  · cases h

theorem getElem?_set_workers {worker worker' : Worker Job} {workers : List (Worker Job)} {j : Nat}
    (hi : workers[i]? = some worker) :
    (workers.set i worker')[j]? = if j = i then some worker' else workers[j]? := by
  by_cases hj : j = i
  · subst hj
    rw [if_pos rfl, List.getElem?_set_self (List.getElem?_eq_some_iff.mp hi).1]
  · rw [if_neg hj, List.getElem?_set_ne (Ne.symm hj)]

theorem exists_left_of_deserted (h : p.deserted = true) (hstaffed : p.workers ≠ []) :
    ∃ i : Nat, p.workers[i]? = some .left := by
  obtain ⟨worker, rest, hworkers⟩ := List.exists_cons_of_ne_nil hstaffed
  refine ⟨0, ?_⟩
  rw [deserted, hworkers] at h
  have hleft := (Bool.and_eq_true_iff.mp h).1
  rw [hworkers]
  cases worker <;> first | rfl | cases hleft

end Pool

namespace Ledger

variable {e : ExecutorId} {p : Pool Job}

theorem step {t : Turn} {s : Step μ} {reply : s.Reply} (h : Ledger e trace m p)
    (hallows : (Access.conduct.standing trace t).Allows s)
    (hpool : (m.world.executor e).pool? = some p)
    (hrun : s.run m.world = some (reply, m'.world))
    (hworkers : ∀ key, (m'.workers.get? key).isSome = (m.workers.get? key).isSome) :
    Ledger e ((t, .step s reply) :: trace) m' ((Deed.step s reply).onPool e p) where
  order := by
    rw [← List.singleton_append, Trace.accepted_append, Trace.started_append, Trace.accepted_singleton,
      Trace.started_singleton, Deed.started?_step, Deed.queue_onPool, h.order]
    simp only [Option.toList_none, List.append_nil, List.append_assoc]
  lent := by
    have hlent := h.lent
    have hhas := Access.lends_le_lent e trace t
    have hpool := Access.borrowed_onPool hallows reply (hlent ▸ hhas)
    have htotal := Access.lent_step e trace t s reply
    omega
  busy i := by rw [hworkers, Deed.workers_onPool]; exact h.busy i
  vacated i hi := by
    rw [Deed.workers_onPool] at hi
    obtain ⟨hqueue, hclosed, hborrowed⟩ := h.vacated i hi
    have hnone : (Access.conduct.standing trace t).sender ≠ some e := by
      intro hsender
      have hhas := Access.lends_le_lent e trace t
      rw [Access.lends, if_pos hsender, ← h.lent, hborrowed] at hhas
      exact Nat.not_succ_le_zero 0 hhas
    have hafter : ((Access.conduct.standing trace t).after s reply).sender ≠ some e := by
      intro hsender
      rcases Access.sender_after hsender with hold | hborrow
      · exact hnone hold
      · cases hborrow
        have haccepting := Step.borrow_reply hrun hpool
        rw [hclosed] at haccepting
        cases haccepting
    have hpool := Access.borrowed_onPool hallows reply (e := e) (p := p) (by
      rw [Access.lends, if_neg hnone]
      exact Nat.zero_le _)
    rw [Access.lends, if_neg hnone, Access.lends, if_neg hafter, hborrowed] at hpool
    refine ⟨?_, Deed.accepting_onPool _ e p hclosed, hpool⟩
    rw [Deed.queue_onPool, hqueue, Access.sent?_eq_none hallows reply hnone]
    rfl
  closed hclosed := by
    rcases Deed.accepting_onPool_eq_false _ e p hclosed with hold | hclose
    · obtain ⟨u, hu⟩ := h.closed hold
      exact ⟨u, List.mem_cons_of_mem _ hu⟩
    · exact ⟨t, hclose ▸ List.mem_cons_self⟩
  staffed := by rw [Deed.workers_onPool]; exact h.staffed

/-- An idle worker takes the oldest job. -/
theorem take {i : Nat} {job : Job} {p' : Pool Job} (h : Ledger e trace m p)
    (htake : p.take i = some (job, p'))
    (hworkers : ∀ j, (m'.workers.get? (e, j)).isSome =
      (decide (j = i) || (m.workers.get? (e, j)).isSome)) :
    Ledger e ((.worker e i, .took job) :: trace) m' p' := by
  obtain ⟨rest, hidle, hqueue, rfl⟩ := Pool.take_eq_some htake
  have hsent : (Deed.took job : Deed μ).sent? e = none := rfl
  have hstarted : (Deed.took job : Deed μ).started? e (.worker e i) = some (i, job) := if_pos rfl
  constructor
  · rw [← List.singleton_append, Trace.accepted_append, Trace.started_append, Trace.accepted_singleton,
      Trace.started_singleton, hsent, hstarted, h.order, hqueue]
    simp only [Option.toList_none, List.append_nil, Option.toList_some, List.map_append,
      List.map_singleton, List.append_assoc, List.singleton_append]
  · exact h.lent.trans (Access.lent_cons_of_eq e fun _ => rfl).symm
  · intro j
    rw [hworkers, Bool.or_eq_true, decide_eq_true_eq, h.busy, Pool.getElem?_set_workers hidle]
    by_cases hj : j = i
    · simp only [hj, if_true, true_or, Option.some.injEq, Worker.busy.injEq, exists_eq']
    · simp only [hj, if_false, false_or]
  · intro j hj
    rw [Pool.getElem?_set_workers hidle] at hj
    split at hj
    · cases hj
    · have hempty := (h.vacated j hj).1
      rw [hqueue] at hempty
      cases hempty
  · intro hclosed
    obtain ⟨u, hu⟩ := h.closed hclosed
    exact ⟨u, List.mem_cons_of_mem _ hu⟩
  · rw [ne_eq, List.set_eq_nil_iff]
    exact h.staffed

/-- A worker that has come to the end of a job is idle again. -/
theorem finish {i : Nat} {p' : Pool Job} (h : Ledger e trace m p) (hfinish : p.finish i = some p')
    (hworkers : ∀ j, (m'.workers.get? (e, j)).isSome =
      (!decide (j = i) && (m.workers.get? (e, j)).isSome)) : Ledger e trace m' p' := by
  obtain ⟨job, hbusy, rfl⟩ := Pool.finish_eq_some hfinish
  constructor
  · exact h.order
  · exact h.lent
  · intro j
    rw [hworkers, Bool.and_eq_true, Bool.not_eq_true', decide_eq_false_iff_not, h.busy,
      Pool.getElem?_set_workers hbusy]
    by_cases hj : j = i
    · simp only [hj, not_true, false_and, if_true, Option.some.injEq, reduceCtorEq, exists_false]
    · simp only [hj, not_false_eq_true, true_and, if_false]
  · intro j hj
    rw [Pool.getElem?_set_workers hbusy] at hj
    split at hj
    · cases hj
    · exact h.vacated j hj
  · exact h.closed
  · rw [ne_eq, List.set_eq_nil_iff]
    exact h.staffed

/-- An idle worker leaves when nothing can come any more. -/
theorem leave {i : Nat} {p' : Pool Job} (h : Ledger e trace m p) (hleave : p.leave i = some p')
    (hworkers : m'.workers = m.workers) : Ledger e trace m' p' := by
  obtain ⟨hidle, hqueue, hclosed, hborrowed, rfl⟩ := Pool.leave_eq_some hleave
  constructor
  · exact h.order
  · exact h.lent
  · intro j
    rw [hworkers, h.busy, Pool.getElem?_set_workers hidle]
    by_cases hj : j = i
    · subst hj
      simp only [hidle, if_true, Option.some.injEq, reduceCtorEq, exists_false]
    · rw [if_neg hj]
  · exact fun _ _ => ⟨hqueue, hclosed, hborrowed⟩
  · exact h.closed
  · rw [ne_eq, List.set_eq_nil_iff]
    exact h.staffed

/-- What other executors do is not in this ledger. -/
theorem elsewhere {t : Turn} {deed : Deed μ} (h : Ledger e trace m p) (hsent : deed.sent? e = none)
    (hstarted : deed.started? e t = none) (hlent : ∀ g : Access, Access.conduct.next t g deed = g)
    (hworkers : ∀ j, m'.workers.get? (e, j) = m.workers.get? (e, j)) :
    Ledger e ((t, deed) :: trace) m' p := by
  constructor
  · rw [← List.singleton_append, Trace.accepted_append, Trace.started_append, Trace.accepted_singleton,
      Trace.started_singleton, hsent, hstarted, h.order]
    simp only [Option.toList_none, List.append_nil]
  · exact h.lent.trans (Access.lent_cons_of_eq e hlent).symm
  · exact fun i => hworkers i ▸ h.busy i
  · exact h.vacated
  · intro hclosed
    obtain ⟨u, hu⟩ := h.closed hclosed
    exact ⟨u, List.mem_cons_of_mem _ hu⟩
  · exact h.staffed

theorem of_workers (h : Ledger e trace m p)
    (hworkers : ∀ j, m'.workers.get? (e, j) = m.workers.get? (e, j)) : Ledger e trace m' p :=
  ⟨h.order, h.lent, fun i => hworkers i ▸ h.busy i, h.vacated, h.closed,
    h.staffed⟩

/-- Whatever the turn, the ledger is in order afterwards. -/
theorem of_poolTurn {t : Turn} {deeds : List (Deed μ)} (h : Ledger e trace m p)
    (hpool : (m.world.executor e).pool? = some p)
    (hallows : ∀ s next, m.program? t = some (.step s next) →
      (Access.conduct.standing trace t).Allows s)
    (hturn : Machine.PoolTurn β depth m m' t deeds) :
    ∃ p', (m'.world.executor e).pool? = some p' ∧
      Ledger e (deeds.map (t, ·) ++ trace) m' p' := by
  -- A worker of this or of another executor changes its pool.
  have hset : ∀ e' q, m'.world = m.world.setPool e' q →
      (m'.world.executor e).pool? = some (if e' = e then q else p) :=
    fun e' q hworld => hworld ▸ World.pool?_setPool hpool e' q
  have hother : ∀ {e' : ExecutorId}, e' ≠ e → ∀ i j : Nat, (e, j) ≠ (e', i) :=
    fun hne i j heq => hne (congrArg Prod.fst heq).symm
  cases hturn with
  | step program world workers =>
    exact ⟨_, Step.pool?_run world hpool, h.step (hallows _ _ program) hpool world workers⟩
  | @take e' i job q idle take world workers =>
    refine ⟨_, hset e' q world, ?_⟩
    by_cases he : e' = e
    · subst he
      rw [World.pool_of_pool? hpool] at take
      rw [if_pos rfl]
      refine h.take take fun j => ?_
      by_cases hj : j = i
      · simp only [workers, hj, if_true, Option.isSome_some, decide_true, Bool.true_or]
      · simp only [workers, Prod.mk.injEq, hj, and_false, if_false, decide_false, Bool.false_or]
    · rw [if_neg he]
      refine h.elsewhere rfl (if_neg he) (fun _ => rfl) fun j => ?_
      rw [workers, if_neg (hother he i j)]
  | @finish e' i q complete finish world workers =>
    refine ⟨_, hset e' q world, ?_⟩
    by_cases he : e' = e
    · subst he
      rw [World.pool_of_pool? hpool] at finish
      rw [if_pos rfl]
      refine h.finish finish fun j => ?_
      by_cases hj : j = i
      · simp only [workers, hj, if_true, Option.isSome_none, decide_true, Bool.not_true,
          Bool.false_and]
      · simp only [workers, Prod.mk.injEq, hj, and_false, if_false, decide_false, Bool.not_false,
          Bool.true_and]
    · rw [if_neg he]
      refine h.of_workers fun j => ?_
      rw [workers, if_neg (hother he i j)]
  | @leave e' i q idle leave world workers =>
    refine ⟨_, hset e' q world, ?_⟩
    by_cases he : e' = e
    · subst he
      rw [World.pool_of_pool? hpool] at leave
      rw [if_pos rfl]
      exact h.leave leave workers
    · rw [if_neg he]
      exact h.of_workers fun j => by rw [workers]
  | aside quiet executors workers =>
    refine ⟨p, (Step.pool?_of_executors executors).trans hpool, ?_⟩
    have hsame : ∀ j, m'.workers.get? (e, j) = m.workers.get? (e, j) := fun j => by rw [workers]
    rcases quiet with rfl | rfl
    · exact h.of_workers hsame
    · exact h.elsewhere rfl (Deed.started?_woke e t) (fun _ => rfl) hsame

end Ledger

namespace Unstaffed

variable {e : ExecutorId}

theorem of_same {t : Turn} {deed : Deed μ} (h : Unstaffed e trace m) (hsent : deed.sent? e = none)
    (hstarted : deed.started? e t = none) (hlent : Access.lent e ((t, deed) :: trace) = 0)
    (hworkers : ∀ j, m'.workers.get? (e, j) = none) : Unstaffed e ((t, deed) :: trace) m' := by
  refine ⟨?_, ?_, hlent, hworkers⟩
  · rw [← List.singleton_append, Trace.accepted_append, Trace.accepted_singleton, h.accepted, hsent]
    rfl
  · rw [← List.singleton_append, Trace.started_append, Trace.started_singleton, h.started, hstarted]
    rfl

/-- No thread has seen any workers there. -/
theorem step {t : Turn} {s : Step μ} {reply : s.Reply} (h : Unstaffed e trace m)
    (hallows : (Access.conduct.standing trace t).Allows s) (hsound : Access.Sound trace m t)
    (hpool : (m.world.executor e).pool? = none)
    (hworkers : ∀ key, (m'.workers.get? key).isSome = (m.workers.get? key).isSome) :
    Unstaffed e ((t, .step s reply) :: trace) m' := by
  have hunknown : e ∉ (Access.conduct.standing trace t).known := by
    intro he
    obtain ⟨p, hp⟩ := hsound.known e he
    rw [hpool] at hp
    cases hp
  have hnone : (Access.conduct.standing trace t).sender ≠ some e :=
    fun hsender => hunknown (hsound.sender e hsender)
  have hafter : ((Access.conduct.standing trace t).after s reply).sender ≠ some e := by
    intro hsender
    rcases Access.sender_after hsender with hold | hborrow
    · exact hnone hold
    · cases hborrow
      exact hunknown hallows.2
  refine h.of_same (Access.sent?_eq_none hallows reply hnone) (Deed.started?_step ..) ?_ fun j => ?_
  · have htotal := Access.lent_step e trace t s reply
    rw [Access.lends, if_neg hnone, Access.lends, if_neg hafter, h.lent] at htotal
    exact htotal
  · have hsame := hworkers (e, j)
    rw [h.busy j] at hsame
    exact Option.not_isSome_iff_eq_none.mp (hsame ▸ Bool.false_ne_true)

/-- A new pool has done nothing yet. -/
theorem ledger {threads : Nat} {bound : Option Nat} (h : Unstaffed e trace m) (hthreads : 0 < threads) :
    Ledger e trace m (.start threads bound) := by
  constructor
  · rw [h.accepted, h.started]
    rfl
  · exact h.lent.symm
  · intro i
    rw [h.busy i]
    simp only [Pool.start, List.getElem?_replicate]
    constructor
    · nofun
    · rintro ⟨job, hjob⟩
      split at hjob <;> cases hjob
  · intro i hi
    simp only [Pool.start, List.getElem?_replicate] at hi
    split at hi <;> cases hi
  · nofun
  · simp only [Pool.start, ne_eq, List.replicate_eq_nil_iff]
    omega

theorem no_turn {i : Nat} (hpool : (m.world.executor e).pool? = none) :
    (m.world.pool e).take i = none ∧ (m.world.pool e).finish i = none := by
  rw [World.pool, hpool]
  exact ⟨rfl, rfl⟩

theorem of_poolTurn {t : Turn} {deeds : List (Deed μ)} (h : Unstaffed e trace m)
    (hpool : (m.world.executor e).pool? = none) (hsound : Access.Sound trace m t)
    (hallows : ∀ s next, m.program? t = some (.step s next) →
      (Access.conduct.standing trace t).Allows s)
    (hturn : Machine.PoolTurn β depth m m' t deeds) :
    (∃ p', (m'.world.executor e).pool? = some p' ∧ Ledger e (deeds.map (t, ·) ++ trace) m' p') ∨
      (m'.world.executor e).pool? = none ∧ Unstaffed e (deeds.map (t, ·) ++ trace) m' := by
  have hset : ∀ e' q, m'.world = m.world.setPool e' q → (m'.world.executor e).pool? = none :=
    fun e' q hworld => hworld ▸ World.pool?_setPool_none hpool e' q
  have hother : ∀ {e' : ExecutorId}, e' ≠ e → ∀ i j : Nat, (e, j) ≠ (e', i) :=
    fun hne i j heq => hne (congrArg Prod.fst heq).symm
  cases hturn with
  | @step _ s next reply program world workers =>
    have hdone : Unstaffed e ((t, .step s reply) :: trace) m' :=
      h.step (hallows _ _ program) hsound hpool workers
    rcases Step.pool?_run_none world hpool with hnone | ⟨x, hdeed, hx⟩
    · exact .inr ⟨hnone, hdone⟩
    · cases hdeed
      cases hp : x.pool? with
      | none => exact .inr ⟨hx ▸ hp, hdone⟩
      | some p =>
        have hnew : x.IsNew := hallows _ _ program
        obtain ⟨threads, bound, hthreads, rfl⟩ := hnew.pool p hp
        exact .inl ⟨_, hx ▸ hp, hdone.ledger hthreads⟩
  | @take e' i job q idle take world workers =>
    have he : e' ≠ e := by
      rintro rfl
      cases (no_turn hpool).1.symm.trans take
    refine .inr ⟨hset e' q world, h.of_same rfl (if_neg he)
      ((Access.lent_cons_of_eq e fun _ => rfl).trans h.lent) fun j => ?_⟩
    rw [workers, if_neg (hother he i j), h.busy]
  | @finish e' i q complete finish world workers =>
    have he : e' ≠ e := by
      rintro rfl
      cases (no_turn hpool).2.symm.trans finish
    refine .inr ⟨hset e' q world, h.accepted, h.started, h.lent, fun j => ?_⟩
    rw [workers, if_neg (hother he i j), h.busy]
  | @leave e' i q idle leave world workers =>
    exact .inr ⟨hset e' q world, h.accepted, h.started, h.lent, fun j => workers ▸ h.busy j⟩
  | aside quiet executors workers =>
    refine .inr ⟨(Step.pool?_of_executors executors).trans hpool, ?_⟩
    have hsame : ∀ j, m'.workers.get? (e, j) = none := fun j => workers ▸ h.busy j
    rcases quiet with rfl | rfl
    · exact ⟨h.accepted, h.started, h.lent, hsame⟩
    · exact h.of_same rfl (Deed.started?_woke e t)
        ((Access.lent_cons_of_eq e fun _ => rfl).trans h.lent) hsame

end Unstaffed

/-- At any moment of any run, the ledgers of all executors are in order. -/
theorem Run.ledger (h : Run β depth memory body trace m) (e : ExecutorId) :
    (∃ p, (m.world.executor e).pool? = some p ∧ Ledger e trace m p) ∨
      (m.world.executor e).pool? = none ∧ Unstaffed e trace m := by
  induction h with
  | start => exact .inr ⟨rfl, rfl, rfl, rfl, fun _ => rfl⟩
  | @turn trace m m' t before moved ih =>
    have hallows : ∀ s next, m.program? t = some (.step s next) →
        (Access.conduct.standing trace t).Allows s :=
      fun s next hprogram => ((Access.orderly before t).of_some hprogram).1
    have hturn := Machine.poolTurn moved
    rcases ih with ⟨p, hpool, hledger⟩ | ⟨hpool, hunstaffed⟩
    · exact .inl (hledger.of_poolTurn hpool hallows hturn)
    · exact hunstaffed.of_poolTurn hpool (Access.sound before t) hallows hturn

end PubSub
