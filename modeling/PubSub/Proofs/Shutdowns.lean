import PubSub.Proofs.Unhindered
import PubSub.Proofs.WorkerPools

/-!
# What a shutdown waits for

The workers of a pool are claimed once, all of them by the same shutdown. That one waits for each of
them, except for the worker on which it runs. So when it returns to an outsider, all that the pool has
ever accepted has been run to its end. Every other shutdown finds nobody to wait for and returns at
once, whatever is still waiting or being run.
-/
namespace PubSub

open Program

section Runs

variable {μ α : Type} {β : Behaviour μ} {depth : Nat} {memory : μ} {body : Body μ α}
  {trace later : Trace μ} {m m' : Machine μ α} {e : ExecutorId} {t : Turn} {p : Pool Job}

/-- The workers of an executor that a deed claims, if it gets any. -/
def Deed.claimed? (e : ExecutorId) : Deed μ → Option (List Nat)
  | .step (.claim e') workers => if e' = e ∧ workers ≠ [] then some workers else none
  | _ => none

/-- Who has claimed workers of an executor, and which, in this order. -/
def Trace.claims (trace : Trace μ) (e : ExecutorId) : List (Turn × List Nat) :=
  trace.reverse.filterMap fun (t, deed) => (deed.claimed? e).map (t, ·)

namespace Trace

theorem claims_append (later trace : Trace μ) (e : ExecutorId) :
    claims (later ++ trace) e = trace.claims e ++ claims later e := by
  rw [claims, List.reverse_append, List.filterMap_append]
  rfl

theorem claims_singleton (t : Turn) (deed : Deed μ) (e : ExecutorId) :
    claims [(t, deed)] e = ((deed.claimed? e).map (t, ·)).toList := by
  simp only [claims, List.reverse_singleton, List.filterMap_cons, List.filterMap_nil]
  cases deed.claimed? e <;> rfl

theorem claims_eq_nil_of_quiet {deeds : List (Deed μ)} (h : ∀ s reply, .step s reply ∉ deeds) :
    claims (deeds.map (t, ·)) e = [] := by
  refine List.filterMap_eq_nil_iff.mpr fun entry hentry => ?_
  obtain ⟨deed, hdeed, rfl⟩ := List.mem_map.mp (List.mem_reverse.mp hentry)
  cases deed with
  | step s reply => exact absurd hdeed (h s reply)
  | took | woke => rfl

theorem mem_claims_of_mem {trace : Trace μ} {workers : List Nat} (hworkers : workers ≠ [])
    (hmem : (t, .step (.claim e) workers) ∈ trace) : (t, workers) ∈ trace.claims e := by
  refine List.mem_filterMap.mpr ⟨_, List.mem_reverse.mpr hmem, ?_⟩
  exact congrArg (Option.map (t, ·)) (if_pos ⟨rfl, hworkers⟩)

end Trace

namespace Step

variable {w w' : World μ}

theorem claim_reply {workers : List Nat} (h : (claim e : Step μ).run w = some (workers, w')) :
    workers = (w.pool e).unclaimed := by
  cases h
  rfl

theorem join_eq_some {i : Nat} (h : (join e i : Step μ).run w = some ((), w')) :
    (w.pool e).hasLeft i = true ∧ w' = w := by
  rw [run] at h
  split at h <;> cases h
  exact ⟨‹_›, rfl⟩

/-- A claim gets all whom nobody has claimed yet. Nothing else changes who they are. -/
theorem unclaimed_run {s : Step μ} {reply : s.Reply} (h : s.run w = some (reply, w'))
    (hpool : (w.executor e).pool? = some p) :
    ((Deed.step s reply).claimed? e = none ∧ ((Deed.step s reply).onPool e p).unclaimed = p.unclaimed) ∨
    (p.unclaimed ≠ [] ∧ (Deed.step s reply).claimed? e = some p.unclaimed ∧
      ((Deed.step s reply).onPool e p).unclaimed = []) := by
  cases s with
  | claim e' =>
    obtain rfl := claim_reply h
    simp only [Deed.claimed?, Deed.onPool, Pool.claim]
    by_cases he : e' = e
    · subst he
      rw [World.pool_of_pool? hpool]
      by_cases hnone : p.unclaimed = []
      · exact .inl ⟨if_neg fun hsome => hsome.2 hnone, by rw [if_pos rfl, hnone]⟩
      · exact .inr ⟨hnone, if_pos ⟨rfl, hnone⟩, by rw [if_pos rfl]⟩
    · exact .inl ⟨if_neg fun hsome => he hsome.1, by rw [if_neg he]⟩
  | borrow | send => cases reply <;> (refine .inl ⟨rfl, ?_⟩; simp only [Deed.onPool]; try split <;> rfl)
  | giveBack | close => refine .inl ⟨rfl, ?_⟩; simp only [Deed.onPool]; split <;> rfl
  | _ => exact .inl ⟨rfl, rfl⟩

end Step

namespace Machine.PoolTurn

variable {deeds : List (Deed μ)}

/-- What a turn does to the claims on the workers of an executor. -/
theorem unclaimed (h : PoolTurn β depth m m' t deeds) (hpool : (m.world.executor e).pool? = some p) :
    ∃ p', (m'.world.executor e).pool? = some p' ∧ p'.workers.length = p.workers.length ∧
      ((Trace.claims (deeds.map (t, ·)) e = [] ∧ p'.unclaimed = p.unclaimed) ∨
        (p.unclaimed ≠ [] ∧ Trace.claims (deeds.map (t, ·)) e = [(t, p.unclaimed)] ∧
          p'.unclaimed = [])) := by
  obtain ⟨p', hpool', ⟨s, reply, rfl, hrun, rfl⟩ | ⟨hquiet, hsame, hlength⟩⟩ := h.onPool hpool
  · refine ⟨_, hpool', congrArg List.length (Deed.workers_onPool ..), ?_⟩
    rw [List.map_singleton, Trace.claims_singleton]
    rcases Step.unclaimed_run hrun hpool with ⟨hclaimed, hafter⟩ | ⟨hsome, hclaimed, hafter⟩
    · exact .inl ⟨by rw [hclaimed]; rfl, hafter⟩
    · exact .inr ⟨hsome, by rw [hclaimed]; rfl, hafter⟩
  · exact ⟨p', hpool', hlength, .inl ⟨Trace.claims_eq_nil_of_quiet hquiet, by rw [hsame]⟩⟩

/-- Where there are no workers, none are claimed. -/
theorem claims_eq_nil (h : PoolTurn β depth m m' t deeds) (hpool : (m.world.executor e).pool? = none) :
    Trace.claims (deeds.map (t, ·)) e = [] := by
  cases h with
  | @step _ s next reply program world workers =>
    rw [List.map_singleton, Trace.claims_singleton]
    cases s with
    | claim e' =>
      obtain rfl := Step.claim_reply world
      have hnobody : ¬(e' = e ∧ (m.world.pool e').unclaimed ≠ []) := by
        rintro ⟨rfl, hsome⟩
        rw [World.pool, hpool] at hsome
        exact hsome rfl
      rw [Deed.claimed?, if_neg hnobody]
      rfl
    | _ => rfl
  | take | finish | leave => rfl
  | aside quiet => rcases quiet with rfl | rfl <;> rfl

/-- Workers come with an executor that is opened in this turn. -/
theorem starts (h : PoolTurn β depth m m' t deeds) (hrun : Run β depth memory body trace m)
    (hpool : (m.world.executor e).pool? = none) (hpool' : (m'.world.executor e).pool? = some p) :
    ∃ threads bound, p = .start threads bound := by
  have hset : ∀ e' q, m'.world ≠ m.world.setPool e' q := by
    intro e' q hworld
    rw [hworld, World.pool?_setPool_none hpool] at hpool'
    cases hpool'
  cases h with
  | @step _ s next reply program world workers =>
    rcases Step.pool?_run_none world hpool with hnone | ⟨x, hdeed, hx⟩
    · cases hnone.symm.trans hpool'
    · cases hdeed
      have hnew : x.IsNew := ((Access.orderly hrun t).of_some program).1
      obtain ⟨threads, bound, -, hp⟩ := hnew.pool p (hx ▸ hpool')
      exact ⟨threads, bound, hp⟩
  | take _ _ world => exact absurd world (hset _ _)
  | finish _ _ world => exact absurd world (hset _ _)
  | leave _ _ world => exact absurd world (hset _ _)
  | aside _ executors => cases hpool.symm.trans ((Step.pool?_of_executors executors).symm.trans hpool')

end Machine.PoolTurn

/-- Nobody has claimed any worker of a pool, or somebody has claimed all of them. -/
inductive Claims (e : ExecutorId) (trace : Trace μ) (p : Pool Job) : Prop where
  | untouched (claims : trace.claims e = []) (unclaimed : p.unclaimed = List.range p.workers.length)
  | taken (u : Turn) (claims : trace.claims e = [(u, List.range p.workers.length)])
      (unclaimed : p.unclaimed = [])

namespace Claims

/-- Where nobody has been claimed yet, the next claim gets all. After that there is nobody left. -/
theorem of_poolTurn {deeds : List (Deed μ)} (h : Claims e trace p)
    (hpool : (m.world.executor e).pool? = some p) (hturn : Machine.PoolTurn β depth m m' t deeds) :
    ∃ p', (m'.world.executor e).pool? = some p' ∧ Claims e (deeds.map (t, ·) ++ trace) p' := by
  obtain ⟨p', hpool', hlength, ⟨hclaims, hsame⟩ | ⟨hsome, hclaims, hnobody⟩⟩ := hturn.unclaimed hpool
  · refine ⟨p', hpool', ?_⟩
    cases h with
    | untouched claims unclaimed =>
      refine .untouched ?_ (by rw [hsame, unclaimed, hlength])
      rw [Trace.claims_append, claims, hclaims, List.append_nil]
    | taken u claims unclaimed =>
      refine .taken u ?_ (hsame.trans unclaimed)
      rw [Trace.claims_append, claims, hclaims, List.append_nil, hlength]
  · refine ⟨p', hpool', ?_⟩
    cases h with
    | untouched claims unclaimed =>
      refine .taken t ?_ hnobody
      rw [Trace.claims_append, claims, hclaims, List.nil_append, unclaimed, hlength]
    | taken u claims unclaimed => exact absurd unclaimed hsome

end Claims

/-- A new pool has all its workers, and nobody has claimed them. -/
theorem Claims.start {threads : Nat} {bound : Option Nat} (h : trace.claims e = []) :
    Claims e trace (.start threads bound) :=
  .untouched h (congrArg List.range List.length_replicate.symm)

theorem Run.claims (h : Run β depth memory body trace m) (e : ExecutorId) :
    (∃ p, (m.world.executor e).pool? = some p ∧ Claims e trace p) ∨
      (m.world.executor e).pool? = none ∧ trace.claims e = [] := by
  induction h with
  | start => exact .inr ⟨rfl, rfl⟩
  | @turn trace m m' t before moved ih =>
    have hturn := Machine.poolTurn moved
    rcases ih with ⟨p, hpool, hclaims⟩ | ⟨hpool, hclaims⟩
    · exact .inl (hclaims.of_poolTurn hpool hturn)
    · have hstill : Trace.claims ((m.deeds t).map (t, ·) ++ trace) e = [] := by
        rw [Trace.claims_append, hclaims, hturn.claims_eq_nil hpool]
        rfl
      cases hpool' : (m'.world.executor e).pool? with
      | none => exact .inr ⟨rfl, hstill⟩
      | some p' =>
        obtain ⟨threads, bound, rfl⟩ := hturn.starts before hpool hpool'
        exact .inl ⟨_, rfl, .start hstill⟩

theorem Run.claims_of_pool? (h : Run β depth memory body trace m)
    (hpool : (m.world.executor e).pool? = some p) : Claims e trace p := by
  rcases h.claims e with ⟨q, hq, hclaims⟩ | ⟨hnone, -⟩
  · cases hpool.symm.trans hq
    exact hclaims
  · cases hpool.symm.trans hnone

/-- Whoever gets any workers gets them all, and nobody else does. -/
theorem Run.claims_eq_of_mem (h : Run β depth memory body trace m)
    (hpool : (m.world.executor e).pool? = some p) {workers : List Nat} (hworkers : workers ≠ [])
    (hmem : (t, .step (.claim e) workers) ∈ trace) : trace.claims e = [(t, workers)] := by
  have hmine := Trace.mem_claims_of_mem hworkers hmem
  cases h.claims_of_pool? hpool with
  | untouched claims => rw [claims] at hmine; cases hmine
  | taken u claims =>
    rw [claims, List.mem_singleton] at hmine
    rw [claims, hmine]

/-- A pool keeps all its workers. -/
theorem Machine.Course.length_workers (h : m.Course β depth later m')
    (hpool : (m.world.executor e).pool? = some p) :
    ∃ p', (m'.world.executor e).pool? = some p' ∧ p'.workers.length = p.workers.length := by
  induction h with
  | now => exact ⟨p, hpool, rfl⟩
  | turn _ moved ih =>
    obtain ⟨q, hq, hlength⟩ := ih
    obtain ⟨p', hp', hlength', -⟩ := (Machine.poolTurn moved).unclaimed hq
    exact ⟨p', hp', hlength'.trans hlength⟩

/-- All that an executor has accepted has been run to its end, and it accepts nothing more. -/
structure Drained (β : Behaviour μ) (depth : Nat) (memory : μ) (body : Body μ α) (e : ExecutorId)
    (trace : Trace μ) (m : Machine μ α) : Prop where
  finished : ∀ k job, (trace.accepted e)[k]? = some job →
    ∃ i, AtStage β depth memory body e trace m k job (.finished i)
  final : ∀ later m', m.Course β depth later m' → Trace.accepted later e = []

theorem Run.drained (h : Run β depth memory body trace m) (hpool : (m.world.executor e).pool? = some p)
    (hleft : ∀ i < p.workers.length, p.workers[i]? = some .left) :
    Drained β depth memory body e trace m where
  finished k job haccepted := by
    refine h.finished_of_left hpool (fun worker hworker => ?_) haccepted
    obtain ⟨i, hi⟩ := List.mem_iff_getElem?.mp hworker
    exact Option.some.inj (hi.symm.trans (hleft i (List.getElem?_eq_some_iff.mp hi).1))
  final later m' hcourse := by
    have hstaffed := List.length_pos_iff.mpr (h.ledger_of_pool? hpool).staffed
    refine h.accepted_of_left hpool (i := 0) ?_ hcourse
    rw [World.pool_of_pool? hpool, hleft 0 hstaffed]

theorem Run.drained_after (h : Run β depth memory body trace m)
    (hpool : (m.world.executor e).pool? = some p)
    (hleft : ∀ i < p.workers.length, p.workers[i]? = some .left) (hcourse : m.Course β depth later m') :
    Drained β depth memory body e (later ++ trace) m' := by
  obtain ⟨p', hpool', hlength⟩ := hcourse.length_workers hpool
  refine (h.course hcourse).drained hpool' fun i hi => ?_
  rw [← World.pool_of_pool? hpool']
  exact hcourse.left hpool (World.pool_of_pool? hpool ▸ hleft i (hlength ▸ hi))

/-- When only one worker has not left, but another one has, there is nothing to do but what this worker
has. -/
theorem Run.finished_or_running (h : Run β depth memory body trace m)
    (hpool : (m.world.executor e).pool? = some p) {i : Nat}
    (hleft : ∀ j < p.workers.length, j ≠ i → p.workers[j]? = some .left) (hothers : 1 < p.workers.length)
    {k : Nat} {job : Job} (haccepted : (trace.accepted e)[k]? = some job) :
    (∃ j, AtStage β depth memory body e trace m k job (.finished j)) ∨
      AtStage β depth memory body e trace m k job (.running i) := by
  have hqueue : p.queue = [] := by
    obtain ⟨j, hj, hne⟩ : ∃ j < p.workers.length, j ≠ i := by
      by_cases hi : i = 0
      · exact ⟨1, hothers, by omega⟩
      · exact ⟨0, by omega, by omega⟩
    exact ((h.ledger_of_pool? hpool).vacated j (hleft j hj hne)).1
  obtain ⟨stage, hstage, -⟩ := h.existsUnique_atStage hpool haccepted
  cases hstage with
  | queued behind waits =>
    rw [World.pool_of_pool? hpool, hqueue] at waits
    cases waits
  | @running j hrunning =>
    have hbusy := hrunning.busy
    rw [World.pool_of_pool? hpool] at hbusy
    by_cases hj : j = i
    · exact .inr (hj ▸ .running hrunning)
    · have hgone := hleft j (List.getElem?_eq_some_iff.mp hbusy).1 hj
      cases hbusy.symm.trans hgone
  | finished started ended gone => exact .inl ⟨_, .finished started ended gone⟩

theorem Pool.left_of_hasLeft {i : Nat} (h : p.hasLeft i = true) (hi : i < p.workers.length) :
    p.workers[i]? = some .left := by
  rw [hasLeft] at h
  split at h
  · assumption
  · cases h
  · rename_i hnone
    rw [List.getElem?_eq_none_iff] at hnone
    omega

theorem ends_joins {name : Thread} {workers : List Nat} {deeds : List (Deed μ)}
    (h : Proc.Ends (forEach workers fun worker =>
      if name = .worker e worker then return () else Proc.join e worker) deeds ()) :
    ∀ i ∈ workers, name ≠ .worker e i → .step (.join e i) () ∈ deeds := by
  induction workers generalizing deeds with
  | nil => exact List.forall_mem_nil _
  | cons worker workers ih =>
    obtain ⟨_, first, rest, hfirst, hrest, rfl⟩ := Proc.ends_bind h
    refine List.forall_mem_cons.mpr ⟨fun hname => ?_, fun i hi hname =>
      List.mem_append_right _ (ih hrest i hi hname)⟩
    have hjoin : Proc.Ends (Proc.join e worker) first () := by simpa only [if_neg hname] using hfirst
    cases hjoin
    exact List.mem_append_left _ List.mem_cons_self

/-- A shutdown closes the pool, claims workers and waits for them. -/
theorem ends_shutdown {name : Thread} {deeds : List (Deed μ)}
    (h : Proc.Ends (shutdown name e) deeds ()) : ∃ workers joins,
      deeds = .step (.close e) () :: .step (.claim e) workers :: joins ∧
        (∀ i ∈ workers, name ≠ .worker e i → .step (.join e i) () ∈ joins) ∧
        (workers = [] → joins = []) := by
  obtain ⟨_, _, rfl, hclaim⟩ := Proc.ends_ask_bind h
  obtain ⟨workers, joins, rfl, hjoins⟩ := Proc.ends_ask_bind hclaim
  refine ⟨workers, joins, rfl, ends_joins hjoins, ?_⟩
  rintro rfl
  exact (Proc.ends_done hjoins).1

variable {name : Thread}

/-- A call of shutdown that has claimed all workers of a pool. -/
structure Waited (β : Behaviour μ) (depth : Nat) (memory : μ) (body : Body μ α) (e : ExecutorId)
    (trace later : Trace μ) (m' : Machine μ α) (t : Turn) (name : Thread) (p : Pool Job) : Prop where
  /-- Nobody had claimed any before, and nobody else has got any since. -/
  first : trace.claims e = []
  claims : Trace.claims later e = [(t, List.range p.workers.length)]
  left : ∀ i < p.workers.length, name ≠ .worker e i → (m'.world.pool e).workers[i]? = some .left
  /-- From outside, the call waits for all of them. -/
  outsider : (∀ i, name ≠ .worker e i) → ∀ after m'', m'.Course β depth after m'' →
    Drained β depth memory body e (after ++ (later ++ trace)) m''
  /-- From inside a job, the call waits for the other workers. -/
  insider : ∀ i, name = .worker e i → 1 < p.workers.length →
    ∀ k job, (Trace.accepted (later ++ trace) e)[k]? = some job →
      (∃ j, AtStage β depth memory body e (later ++ trace) m' k job (.finished j)) ∨
        AtStage β depth memory body e (later ++ trace) m' k job (.running i)

/-- A call of shutdown that has come after the one which got the workers. It waits for nobody. -/
structure Forestalled (e : ExecutorId) (trace later : Trace μ) (t : Turn) (p : Pool Job) : Prop where
  claimed : ∃ before after u, later = after ++ (t, .step (.claim e) []) :: before ∧
    Trace.claims (before ++ trace) e = [(u, List.range p.workers.length)]
  atOnce : later.deedsOf t = [.step (.close e) (), .step (.claim e) []]

/-- What a call of shutdown has come to when it returns. -/
structure ShutsDown (β : Behaviour μ) (depth : Nat) (memory : μ) (body : Body μ α) (e : ExecutorId)
    (trace later : Trace μ) (m' : Machine μ α) (t : Turn) (name : Thread) (p : Pool Job) : Prop where
  closes : ∀ after m'', m'.Course β depth after m'' → (m''.world.pool e).accepting = false
  returns : Waited β depth memory body e trace later m' t name p ∨ Forestalled e trace later t p

/-- Whoever has waited for a worker has seen it leave. -/
theorem Machine.Course.left_of_join (h : m.Course β depth later m')
    (hpool : (m.world.executor e).pool? = some p) {i : Nat} (hi : i < p.workers.length)
    (hjoin : (t, .step (.join e i) ()) ∈ later) : (m'.world.pool e).workers[i]? = some .left := by
  obtain ⟨before, after, m₁, m₂, -, hbefore, hstep, hafter⟩ := h.exists_step hjoin
  obtain ⟨hleft, hsame⟩ := Step.join_eq_some hstep
  obtain ⟨q, hq, hlength⟩ := hbefore.length_workers hpool
  rw [World.pool_of_pool? hq] at hleft
  rw [← hsame] at hq
  refine hafter.left hq ?_
  rw [World.pool_of_pool? hq]
  exact Pool.left_of_hasLeft hleft (hlength.symm ▸ hi)

/-- In every run, whatever the other threads and the workers do meanwhile: when a shutdown returns, the
pool is closed for good. Either the call has claimed all workers, and then all jobs that the pool ever
accepted are finished from now on if it was made from outside, or another call had claimed them before. -/
theorem shutdown_waits_unless_forestalled (hrun : Run β depth memory body trace m) {threadName : String}
    (hpool : m.world.executor e = .pool threadName p) (hcourse : m.Course β depth later m')
    (hends : Proc.Ends (shutdown name e) (later.deedsOf t) ()) :
    ShutsDown β depth memory body e trace later m' t name p := by
  have hp : (m.world.executor e).pool? = some p := by rw [hpool]; rfl
  have hrun' := hrun.course hcourse
  obtain ⟨p', hp', hlength⟩ := hcourse.length_workers hp
  obtain ⟨workers, joins, hdeeds, hjoins, hnobody⟩ := ends_shutdown hends
  have hdone : ∀ deed ∈ later.deedsOf t, (t, deed) ∈ later := fun deed => Trace.mem_deedsOf.mp
  rw [hdeeds] at hdone
  refine ⟨fun after m'' hafter => hafter.accepting hp' (hcourse.accepting_of_close hp
    (hdone _ List.mem_cons_self)), ?_⟩
  obtain ⟨before, after, m₁, m₂, hsplit, hbefore, hstep, -⟩ :=
    hcourse.exists_step (hdone (.step (.claim e) workers) (by simp))
  obtain ⟨q, hq, hlength₁⟩ := hbefore.length_workers hp
  have hworkers : workers = q.unclaimed := World.pool_of_pool? hq ▸ Step.claim_reply hstep
  cases (hrun.course hbefore).claims_of_pool? hq with
  | taken u claims unclaimed =>
    obtain rfl : workers = [] := hworkers.trans unclaimed
    exact .inr ⟨⟨before, after, u, hsplit, hlength₁ ▸ claims⟩, by rw [hdeeds, hnobody rfl]⟩
  | untouched claims unclaimed =>
    obtain rfl : workers = List.range p.workers.length := by rw [hworkers, unclaimed, hlength₁]
    rw [Trace.claims_append, List.append_eq_nil_iff] at claims
    have hstaffed : List.range p.workers.length ≠ [] := by
      rw [ne_eq, List.range_eq_nil, List.length_eq_zero_iff]
      exact (hrun.ledger_of_pool? hp).staffed
    have hall := hrun'.claims_eq_of_mem hp' hstaffed
      (List.mem_append_left trace (hdone (.step (.claim e) _) (by simp)))
    rw [Trace.claims_append, claims.1, List.nil_append] at hall
    have hleft : ∀ i < p.workers.length, name ≠ .worker e i → p'.workers[i]? = some .left := by
      intro i hi hname
      rw [← World.pool_of_pool? hp']
      have hjoin := hjoins i (List.mem_range.mpr hi) hname
      exact hcourse.left_of_join hp hi (hdone _ (List.mem_cons_of_mem _ (List.mem_cons_of_mem _ hjoin)))
    refine .inl ⟨claims.1, hall, World.pool_of_pool? hp' ▸ hleft, fun hname after m'' hafter => ?_,
      fun i hname hothers k job haccepted => ?_⟩
    · exact hrun'.drained_after hp' (fun i hi => hleft i (hlength ▸ hi) (hname i)) hafter
    · refine hrun'.finished_or_running hp' (fun j hj hne => ?_) (hlength.symm ▸ hothers) haccepted
      exact hleft j (hlength ▸ hj) fun hsame => hne (by rw [hname] at hsame; cases hsame; rfl)

end Runs

namespace Rush

def behaviour : Behaviour Unit where
  handle _ _ := .done .fine
  observe _ _ := .done none
  work body := if body.serial = 0 then .done none else .step (.shutdown 0) fun _ => .done none

/-- A job and a task that closes the pool are started, then the pool is closed. -/
def body : Body Unit Unit := .step (.startPool ⟨1, 0, "hand"⟩) fun e =>
  .step (.submit e "job" ⟨0⟩) fun _ =>
  .step (.startTask ⟨1⟩) fun _ => .step (.shutdown e) fun _ => .done ()

/-- The run up to the moment at which the main thread is about to close the pool. -/
def start : Option (Trace Unit × Machine Unit Unit) :=
  (Machine.start behaviour 2 () body).play behaviour 2 (List.replicate 7 (.caller 0))

/-- The main thread is the first. -/
def patient : List Turn :=
  List.replicate 2 (.caller 0) ++ List.replicate 5 (.worker 0 0) ++ [.caller 0]

/-- The task is the first. -/
def hasty : List Turn := List.replicate 3 (.task 0) ++ List.replicate 2 (.caller 0)

theorem program_start : start.bind (fun run => run.2.program? (.caller 0)) =
    some ((shutdown .main 0).bind fun _ => .done ()).silently := rfl

theorem seen_patient : (start.bind fun run => (run.2.play behaviour 2 patient).map fun last =>
    ((run.2.world.executor 0).isPool "hand", last.1.deedsOf (.caller 0),
      (Trace.accepted (last.1 ++ run.1) 0).length)) =
    some (true, [.step (.close 0) (), .step (.claim 0) [0], .step (.join 0 0) ()], 1) := rfl

theorem seen_hasty : (start.bind fun run => (run.2.play behaviour 2 hasty).map fun last =>
    ((run.2.world.executor 0).isPool "hand", last.1.deedsOf (.caller 0),
      Trace.accepted (last.1 ++ run.1) 0, Trace.started (last.1 ++ run.1) 0)) =
    some (true, [.step (.close 0) (), .step (.claim 0) []], [.work "job" ⟨0⟩], []) := rfl

end Rush

open Rush in
/-- The main thread closes the pool while its job is still waiting, and claims the worker before the task
can. When the call returns, the job is finished. -/
theorem shutdown_waits_unless_forestalled_on_main : ∃ trace m p later m',
    Run behaviour 2 () body trace m ∧
    m.world.executor 0 = .pool "hand" p ∧ m.Course behaviour 2 later m' ∧
      Proc.Ends (shutdown .main 0) (later.deedsOf (.caller 0)) () ∧
        (Trace.accepted (later ++ trace) 0).length = 1 ∧
          Waited behaviour 2 () body 0 trace later m' (.caller 0) .main p ∧
            Drained behaviour 2 () body 0 (later ++ trace) m' := by
  obtain ⟨⟨trace, m⟩, hstart, hrest⟩ := Option.bind_eq_some_iff.mp seen_patient
  obtain ⟨⟨later, m'⟩, hplay, hseen⟩ := Option.map_eq_some_iff.mp hrest
  obtain ⟨hpool, hseen⟩ := Prod.mk.inj hseen
  obtain ⟨hdeeds, haccepted⟩ := Prod.mk.inj hseen
  have hrun := Run.of_play hstart
  obtain ⟨p, hexecutor⟩ := Executor.exists_of_isPool hpool
  have hcourse := Machine.course_of_play hplay
  have hends : Proc.Ends (shutdown .main 0) (later.deedsOf (.caller 0)) () := by
    rw [hdeeds]
    exact .step (.step (.step (.done ())))
  refine ⟨trace, m, p, later, m', hrun, hexecutor, hcourse, hends, haccepted, ?_⟩
  rcases (shutdown_waits_unless_forestalled hrun hexecutor hcourse hends).returns with hwaited | hlate
  · exact ⟨hwaited, hwaited.outsider (fun _ h => by cases h) [] m' .now⟩
  · cases hlate.atOnce.symm.trans hdeeds

open Rush in
/-- The task has claimed the worker when the main thread closes the pool. It returns while the job is
still waiting in the queue. -/
theorem second_shutdown_does_not_wait : ∃ trace m p next later m', Run behaviour 2 () body trace m ∧
    m.world.executor 0 = .pool "hand" p ∧
      m.program? (.caller 0) = some ((shutdown .main 0).bind next) ∧ m.Course behaviour 2 later m' ∧
        Proc.Ends (shutdown .main 0) (later.deedsOf (.caller 0)) () ∧ (∀ i, Thread.main ≠ .worker 0 i) ∧
          ∃ job, (Trace.accepted (later ++ trace) 0)[0]? = some job ∧
            ¬∃ i, AtStage behaviour 2 () body 0 (later ++ trace) m' 0 job (.finished i) := by
  obtain ⟨⟨trace, m⟩, hstart, hrest⟩ := Option.bind_eq_some_iff.mp seen_hasty
  obtain ⟨⟨later, m'⟩, hplay, hseen⟩ := Option.map_eq_some_iff.mp hrest
  obtain ⟨hpool, hseen⟩ := Prod.mk.inj hseen
  obtain ⟨hdeeds, hseen⟩ := Prod.mk.inj hseen
  obtain ⟨haccepted, hstarted⟩ := Prod.mk.inj hseen
  have hrun := Run.of_play hstart
  obtain ⟨p, hexecutor⟩ := Executor.exists_of_isPool hpool
  have hprogram := program_start
  rw [hstart, Option.bind_some, silently, bind_assoc] at hprogram
  have hends : Proc.Ends (shutdown .main 0) (later.deedsOf (.caller 0)) () := by
    rw [hdeeds]
    exact .step (.step (.done ()))
  refine ⟨trace, m, p, _, later, m', hrun, hexecutor, hprogram, Machine.course_of_play hplay, hends,
    fun _ h => (by cases h), _, by rw [haccepted]; rfl, ?_⟩
  rintro ⟨i, hfinished⟩
  cases hfinished with
  | finished started =>
    rw [hstarted] at started
    cases started

end PubSub
