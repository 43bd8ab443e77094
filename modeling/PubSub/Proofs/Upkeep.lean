import PubSub.Proofs.Lawful
import PubSub.Proofs.Paths

/-!
# What all programs keep

Whatever the code of clients does, it reaches the library through calls, and the library takes most
of its steps without regard to what the thread did before. A property of standings that every such
step keeps, and that the few sequences of steps that belong together keep as a whole, is kept by all
programs.
-/
namespace PubSub

open Program

variable {μ α β : Type}

/-- A thread hands a job to an executor: what the executor is, and whether it takes the job. -/
def handing (e : ExecutorId) (job : Job) : Proc μ (Executor × Option Bool) := do
  let executor ← Proc.readExecutor e
  match executor with
  | .manual _ =>
    let accepted ← Proc.offer e job
    return (executor, some accepted)
  | _ =>
    let taken ← sendToWorkers e job
    return (executor, taken)

/-- What the thread answers then. A job that is not taken is dropped first. -/
def settling (client : Client μ) (t : Thread) (job : Job) :
    Executor × Option Bool → Proc μ (Except BusError Unit)
  | (_, some true) => return .ok ()
  | (.manual m, _) => do
    dropJob client t job
    return .error m.rejection
  | (.runtime _, _) => do
    dropJob client t job
    return .ok ()
  | (.pool name p, some false) => do
    dropJob client t job
    return .error (.rejected (Executor.pool name p).view.name "worker queue closed")
  | (.pool name p, none) => do
    dropJob client t job
    return .error (.rejected (Executor.pool name p).view.name "worker pool is shut down")

theorem submit_eq (client : Client μ) (t : Thread) (e : ExecutorId) (job : Job) :
    submit client t e job = (handing e job).bind (settling client t job) := by
  simp only [submit, handing, bind_eq, pure_eq, bind_assoc]
  congr 1
  funext executor
  cases executor with
  | manual m =>
    simp only [bind_assoc, done_bind]
    congr 1
    funext accepted
    cases accepted <;> rfl
  | pool name p =>
    simp only [bind_assoc, done_bind]
    congr 1
    funext taken
    rcases taken with _ | _ | _ <;> rfl
  | runtime p =>
    simp only [bind_assoc, done_bind]
    congr 1
    funext taken
    rcases taken with _ | _ | _ <;> rfl

/-- An executor that is opened has no jobs yet, and if it has threads of its own, there are some. -/
structure Executor.IsNew (x : Executor) : Prop where
  jobs : x.jobs = []
  pool : ∀ p, x.pool? = some p → ∃ threads bound, 0 < threads ∧ p = .start threads bound

theorem PoolSettings.threadsOn_pos (c : PoolSettings) : 0 < c.threadsOn PubSub.processors := by
  unfold threadsOn
  split
  · exact Nat.one_pos
  · omega

/-- Steps that the library takes without regard to what the thread did before. -/
def Step.isOrdinary : Step μ → Bool
  | .record _ o =>
    match o with
    | .selected _ _ | .called _ _ | .submitted _ | .answered _ _ | .declared _ _ _ => false
    | _ => true
  | .enrol _ _ _ | .offer _ _ | .borrow _ | .send _ _ | .giveBack _ | .openExecutor _ => false
  | .computeTable _ _ _ | .keepTable _ _ _ => false
  | _ => true

namespace Conduct

variable {C : Conduct μ} {P : C.Standing → Prop}

/-- From any standing of this kind the program keeps to the rules, and ends with such a standing. -/
def Keeping (C : Conduct μ) (P : C.Standing → Prop) (p : Proc μ α) : Prop :=
  ∀ g, P g → C.Obeys g p fun g _ => P g

/-- From any standing of this kind the program keeps to the rules, and its end is as it should be. -/
def Passing (C : Conduct μ) (P : C.Standing → Prop) (p : Proc μ α) (Q : α → C.Standing → Prop) : Prop :=
  ∀ g, P g → C.Obeys g p fun g a => Q a g

theorem Passing.bind {p : Proc μ α} {f : α → Proc μ β} {Q : α → C.Standing → Prop}
    {R : β → C.Standing → Prop} (h : C.Passing P p Q) (hf : ∀ a, C.Passing (Q a) (f a) R) :
    C.Passing P (p.bind f) R := fun g hg => Obeys.bind ((h g hg).mono fun g a hg => hf a g hg)

theorem keeping_done (a : α) : C.Keeping P (.done a) := fun _ hg => hg

theorem Keeping.bind {p : Proc μ α} {f : α → Proc μ β} (h : C.Keeping P p)
    (hf : ∀ a, C.Keeping P (f a)) : C.Keeping P (p.bind f) := fun g hg =>
  Obeys.bind ((h g hg).mono fun g a hg => hf a g hg)

theorem keeping_forEach {f : α → Proc μ Unit} (h : ∀ item, C.Keeping P (f item)) (items : List α) :
    C.Keeping P (forEach items f) := fun _ hg =>
  obeys_forEach items (fun item _ g hg => h item g hg) hg

section Ordinary

variable (h : ∀ s : Step μ, s.isOrdinary = true → C.Keeping P (ask s)) (t : Thread)

include h

theorem keeping_log {level : Level} {target message : String} {fields : List (String × String)} :
    C.Keeping P (Proc.log t level target message fields) := h (.record t _) rfl

theorem keeping_tableOf (hcompute : ∀ t b type, C.Keeping P (ask (.computeTable t b type)))
    (hkeep : ∀ b type table, C.Keeping P (ask (.keepTable b type table))) (b : BusId)
    (type : EventType) : C.Keeping P (tableOf t b type) := by
  refine (h (.readBus b) rfl).bind fun bus => ?_
  cases bus.tables.get? type with
  | some table => exact keeping_done table
  | none => exact (hcompute t b type).bind fun table => hkeep b type table

variable (htables : ∀ t b type, C.Keeping P (tableOf t b type))

include htables

theorem keeping_selection (b : BusId) (type : EventType) : C.Keeping P (selection t b type) :=
  (htables t b type).bind fun _ => (h (.readBus b) rfl).bind fun _ => keeping_done _

theorem keeping_findHandlers (b : BusId) (type : EventType) :
    C.Keeping P (findHandlers t b type) := by
  refine (keeping_selection h t htables b type).bind fun found => (h (.readBus b) rfl).bind fun bus => ?_
  by_cases hempty : found.isEmpty
  · simp only [hempty, if_true]
    exact (keeping_log h t).bind fun _ => keeping_done found
  · simp only [hempty]
    exact (keeping_log h t).bind fun _ => keeping_done found

end Ordinary

/-- What a body brings about, it also brings about while its thread holds the handler's lock. -/
theorem passing_exclusively {Q : α → C.Standing → Prop}
    (hbefore : ∀ s : Step μ, s.isOrdinary = true → C.Keeping P (ask s))
    (hafter : ∀ a, ∀ s : Step μ, s.isOrdinary = true → C.Keeping (Q a) (ask s)) (t : Thread) (b : BusId)
    (s : Subscription) {body : Proc μ α} (hbody : C.Passing P body Q) :
    C.Passing P (exclusively t b s body) Q := by
  rw [exclusively]
  by_cases hconcurrent : s.concurrent
  · simp only [hconcurrent, if_true]
    exact hbody
  · simp only [hconcurrent]
    refine Passing.bind (hbefore (.share b s.id) rfl) fun lock => ?_
    refine Passing.bind (hbefore (.acquire b lock t) rfl) fun _ => hbody.bind fun a => ?_
    refine Passing.bind (hafter a (.release b lock) rfl) fun _ => ?_
    refine Passing.bind (hafter a (.unshare b lock) rfl) fun _ => ?_
    refine Passing.bind (hafter a (.readBus b) rfl) fun bus => ?_
    by_cases hpresent : bus.roster.contains s.id.owner
    · simp only [hpresent, if_true]
      exact fun _ hg => hg
    · simp only [hpresent]
      exact Passing.bind (hafter a (.discard b s.id) rfl) fun _ _ hg => hg

/-- What the library does keeps the property, leaving aside deliveries and the code of clients. -/
structure Minds (C : Conduct μ) (P : C.Standing → Prop) : Prop where
  ordinary : ∀ s : Step μ, s.isOrdinary = true → C.Keeping P (ask s)
  tabling : ∀ t b type, C.Keeping P (tableOf t b type)
  enrolling : ∀ b (s : Subscriber) added, s.subscribe = .ok added →
    C.Keeping P (Proc.enrol b s.owner added)
  handing : ∀ e job, C.trustsJob job → C.Keeping P (handing e job)
  opening : ∀ x : Executor, x.IsNew → C.Keeping P (Proc.openExecutor x)

/-- The code of a client keeps the property. -/
structure Tolerates (C : Conduct μ) (P : C.Standing → Prop) (client : Client μ) : Prop where
  handle : ∀ body object, C.Keeping P (client.handle body object)
  observe : ∀ body failure, C.Keeping P (client.observe body failure)
  work : ∀ body, C.Keeping P (client.work body)

namespace Minds

section Library

variable (h : C.Minds P) {client : Client μ} (t : Thread)

include h

theorem log {level : Level} {target message : String} {fields : List (String × String)} :
    C.Keeping P (Proc.log t level target message fields) := keeping_log h.ordinary t

theorem register (b : BusId) (s : Subscriber) : C.Keeping P (register t b s) := by
  refine (h.ordinary (.record t (.listed ..)) rfl).bind fun _ => ?_
  refine (h.ordinary (.readBus b) rfl).bind fun bus => ?_
  cases hsubscribe : s.subscribe with
  | error e => exact (h.log t).bind fun _ => keeping_done _
  | ok added =>
    refine (h.enrolling b s added hsubscribe).bind fun enrolled => ?_
    cases enrolled <;> exact (h.log t).bind fun _ => keeping_done _

theorem unregister (b : BusId) (owner : SubscriberId) (name : String) :
    C.Keeping P (unregister t b owner name) := by
  refine (h.ordinary (.dismiss b owner) rfl).bind fun removed => ?_
  cases removed with
  | none => exact keeping_done _
  | some removed =>
    refine (h.ordinary (.prune b) rfl).bind fun _ => ?_
    refine (h.ordinary (.readBus b) rfl).bind fun _ => ?_
    exact (h.log t).bind fun _ => keeping_done _

theorem shutdown (e : ExecutorId) : C.Keeping P (shutdown t e) := by
  refine (h.ordinary (.close e) rfl).bind fun _ => ?_
  refine (h.ordinary (.claim e) rfl).bind fun workers => ?_
  refine keeping_forEach (fun worker => ?_) workers
  by_cases hself : t = .worker e worker
  · simp only [if_pos hself]
    exact keeping_done ()
  · simp only [if_neg hself]
    exact h.ordinary (.join e worker) rfl

theorem startPool (settings : PoolSettings) : C.Keeping P (startPool t settings) := by
  refine (h.opening _ ⟨rfl, ?_⟩).bind fun _ => (h.log t).bind fun _ => keeping_done _
  rintro p ⟨⟩
  exact ⟨_, _, settings.threadsOn_pos, rfl⟩

variable (hclient : C.Tolerates P client)

include hclient

theorem runHandler (d : Delivery)
    (hcall : ∀ object, C.Keeping P (Proc.record t (.called d.invocation object))) :
    C.Keeping P (runHandler client t d) := by
  refine passing_exclusively h.ordinary (fun _ => h.ordinary) t _ _ ?_
  cases d.route.follow d.invocation.event d.invocation.subscription.topic with
  | none => exact keeping_done _
  | some object =>
    refine (hcall object).bind fun _ => (hclient.handle _ object).bind fun reaction => ?_
    exact (h.ordinary (.record t (.ended d.invocation reaction)) rfl).bind fun _ => keeping_done _

theorem tellAll (i : Invocation) (cause : Cause) : C.Keeping P (tellAll client t i cause) := by
  refine (h.ordinary (.readBus i.bus) rfl).bind fun bus => ?_
  refine (keeping_forEach (fun (observer, place) => ?_) _).bind fun _ => keeping_done _
  refine (h.ordinary (.record t (.reported i place observer _)) rfl).bind fun _ => ?_
  cases observer with
  | log => exact keeping_done ()
  | custom label name body =>
    refine (hclient.observe body _).bind fun payload => ?_
    cases payload with
    | none => exact keeping_done ()
    | some payload => exact h.log t

theorem runJob (job : Job) (hcall : ∀ d executor, job = .delivery d executor →
      ∀ object, C.Keeping P (Proc.record t (.called d.invocation object))) :
    C.Keeping P (runJob client t job) := by
  cases job with
  | work label body =>
    exact (h.ordinary (.record t (.worked label)) rfl).bind fun _ => hclient.work body
  | delivery d executor =>
    have hsettled : C.Keeping P ((Proc.record t (.settled d.invocation)).bind fun _ =>
        (.done none : Proc μ (Option Payload))) :=
      (h.ordinary (.record t (.settled d.invocation)) rfl).bind fun _ => keeping_done _
    refine (h.runHandler t hclient d (hcall d executor rfl)).bind fun reaction => ?_
    cases reaction with
    | fine => exact hsettled
    | failed error => exact (h.tellAll t hclient _ _).bind fun _ => hsettled
    | panicked payload => exact (h.tellAll t hclient _ _).bind fun _ => hsettled

theorem dropJob (job : Job) : C.Keeping P (dropJob client t job) := by
  cases job with
  | work label body => exact keeping_done ()
  | delivery d executor =>
    refine (h.ordinary (.record t (.dropped d.invocation executor)) rfl).bind fun _ => ?_
    exact (h.tellAll t hclient _ _).bind fun _ => h.ordinary (.record t (.settled d.invocation)) rfl

theorem submit (e : ExecutorId) {job : Job} (hjob : C.trustsJob job) :
    C.Keeping P (submit client t e job) := by
  have hdrop : ∀ answer, C.Keeping P ((PubSub.dropJob client t job).bind fun _ =>
      (.done answer : Proc μ (Except BusError Unit))) :=
    fun _ => (h.dropJob t hclient job).bind fun _ => keeping_done _
  rw [submit_eq]
  refine (h.handing e job hjob).bind ?_
  rintro ⟨executor, taken⟩
  rcases taken with _ | _ | _
  · cases executor <;> exact hdrop _
  · cases executor <;> exact hdrop _
  · exact keeping_done _

end Library

end Minds

theorem tolerates_client (β : Behaviour μ) {meaning : (c : Call μ) → Proc μ c.Reply}
    (h : ∀ c, C.Keeping P (meaning c)) : C.Tolerates P (β.client meaning) := by
  have hexpand : ∀ {α : Type} (body : Body μ α), C.Keeping P (body.expand meaning) :=
    fun body _ hg => obeys_expand h body hg
  exact ⟨fun _ _ => hexpand _, fun _ _ => hexpand _, fun _ => hexpand _⟩

/-- The library keeps each of these properties, if the code of clients keeps them all. -/
structure Serves {ι : Type} (C : Conduct μ) (P : ι → C.Standing → Prop) : Prop where
  minds : ∀ i, C.Minds (P i)
  working : ∀ label body, C.trustsJob (.work label body)
  picking : ∀ i e place g, P i g → C.Obeys g (Proc.pick e place) fun g job =>
    P i g ∧ ∀ j, job = some j → C.trustsJob j
  calling : ∀ i t d executor object, C.trustsJob (.delivery d executor) →
    C.Keeping (P i) (Proc.record t (.called d.invocation object))
  posting : ∀ client, (∀ i, C.Tolerates (P i) client) → ∀ i t b event,
    C.Keeping (P i) (post client t b event)

namespace Serves

variable {ι : Type} {P : ι → C.Standing → Prop} (h : C.Serves P)

include h

theorem runJob {client : Client μ} {i : ι} (hclient : C.Tolerates (P i) client) (t : Thread) {job : Job}
    (hjob : C.trustsJob job) : C.Keeping (P i) (runJob client t job) :=
  (h.minds i).runJob t hclient job fun d executor heq object =>
    h.calling i t d executor object (heq ▸ hjob)

/-- A program that goes on with a job from an executor, if there is one. -/
theorem pick_bind {i : ι} (e : ExecutorId) (place : Nat) {f : Option Job → Proc μ α}
    (hnone : C.Keeping (P i) (f none))
    (hsome : ∀ job, C.trustsJob job → C.Keeping (P i) (f (some job))) :
    C.Keeping (P i) ((Proc.pick e place).bind f) := by
  intro g hg
  refine Obeys.bind ((h.picking i e place g hg).mono ?_)
  rintro g job ⟨hg, hjob⟩
  cases job with
  | none => exact hnone g hg
  | some job => exact hsome job (hjob job rfl) g hg

theorem runStored {client : Client μ} {i : ι} (hclient : C.Tolerates (P i) client) (t : Thread)
    (e : ExecutorId) (limit : Nat) : C.Keeping (P i) (runStored client t e limit) := by
  induction limit with
  | zero => exact fun _ _ => trivial
  | succ limit ih =>
    exact h.pick_bind e 0 (keeping_done ()) fun job hjob =>
      (h.runJob hclient t hjob).bind fun _ => ih

theorem serve {client : Client μ} {i : ι} (hclient : C.Tolerates (P i) client) (e worker : Nat)
    {job : Job} (hjob : C.trustsJob job) : C.Keeping (P i) (serve client e worker job) := by
  have hminds := h.minds i
  refine (h.runJob hclient _ hjob).bind fun ended => ?_
  refine (hminds.ordinary (.readExecutor e) rfl).bind fun executor => ?_
  cases ended with
  | none => exact keeping_done ()
  | some payload =>
    cases executor with
    | pool threadName p => exact hminds.log _
    | _ => exact keeping_done ()

/-- Whatever a client calls, and however deep its calls nest. -/
theorem perform (β : Behaviour μ) (depth : Nat) (t : Thread) (c : Call μ) (i : ι) :
    C.Keeping (P i) (β.perform depth t c) := by
  induction depth generalizing t c i with
  | zero => exact fun _ _ => trivial
  | succ depth ih =>
    have hclient : ∀ t i, C.Tolerates (P i) (β.client (β.perform depth t)) := fun t i =>
      tolerates_client β fun c => ih t c i
    have hminds := h.minds i
    have hruntime : (Executor.runtime (.start 1 none)).IsNew := by
      refine ⟨rfl, ?_⟩
      rintro p ⟨⟩
      exact ⟨1, none, Nat.one_pos, rfl⟩
    cases c with
    | readBus b => exact (hminds.ordinary (.readBus b) rfl).bind fun _ => keeping_done _
    | readExecutor e => exact (hminds.ordinary (.readExecutor e) rfl).bind fun _ => keeping_done _
    | post b event => exact h.posting _ (hclient t) i t b event
    | startTask body => exact hminds.ordinary (.startTask body) rfl
    | joinTask task => exact hminds.ordinary (.joinTask task) rfl
    | rest => exact hminds.ordinary (.rest t) rfl
    | register b subscriber => exact hminds.register t b subscriber
    | unregister b owner name => exact hminds.unregister t b owner name
    | reaches b type =>
      exact (keeping_selection hminds.ordinary t hminds.tabling b type).bind fun _ => keeping_done _
    | assignable b type => exact (hminds.tabling t b type).bind fun _ => keeping_done _
    | declare type steps => exact hminds.ordinary (.declare type steps) rfl
    | openBus settings discipline => exact hminds.ordinary (.openBus settings discipline) rfl
    | openManual name room rejection => exact hminds.opening _ ⟨rfl, nofun⟩
    | startPool settings => exact hminds.startPool t settings
    | startRuntime => exact hminds.opening _ hruntime
    | submit e label body => exact hminds.submit t (hclient t i) e (h.working label body)
    | shutdown e => exact hminds.shutdown t e
    | setRoom e room => exact hminds.ordinary (.setRoom e room) rfl
    | runAt e place =>
      exact h.pick_bind e place (keeping_done ()) fun job hjob =>
        (hminds.ordinary .serial rfl).bind fun n =>
          (h.runJob (hclient _ i) (.started n) hjob).bind fun _ => keeping_done _
    | dropAt e place =>
      exact h.pick_bind e place (keeping_done ()) fun job _ => hminds.dropJob t (hclient t i) job
    | runAll e =>
      exact (hminds.ordinary .serial rfl).bind fun n => h.runStored (hclient _ i) (.started n) e depth
    | note operation answer => exact hminds.ordinary (.record t (.nested operation answer)) rfl
    | memory change => exact hminds.ordinary (.memory change) rfl
    | await condition patience =>
      exact (hminds.ordinary .time rfl).bind fun now =>
        hminds.ordinary (.await condition (now + patience)) rfl

/-- All threads keep the property that they start and rest with. -/
theorem governs {i : ι} (hbase : ∀ t, P i (C.base t)) (htake : ∀ g job, P i g → P i (C.take g job))
    (hwake : ∀ t g, P i g → P i (C.wake t g)) (hrests : ∀ t g, C.rests t g ↔ P i g)
    (β : Behaviour μ) (depth : Nat) (body : Body μ α) : C.Governs β depth body := by
  have hrun : ∀ {α : Type} t (body : Body μ α), C.Keeping (P i) (β.run depth t body) :=
    fun t body _ hg => obeys_expand (fun c => h.perform β depth t c i) body hg
  constructor
  · exact fun t => (hrests t _).mpr (hbase t)
  · exact (hrun .main body _ (hbase _)).mono fun g _ hg => (hrests _ g).mpr hg
  · intro n work g hg
    exact (hrun (.started n) _ _ (hwake _ g ((hrests _ g).mp hg))).mono fun g _ hg =>
      (hrests _ g).mpr hg
  · intro e worker job g hg hjob
    have hclient := tolerates_client (C := C) β fun c => h.perform β depth (.worker e worker) c i
    exact (h.serve hclient e worker hjob _ (htake g job ((hrests _ g).mp hg))).mono fun g _ hg =>
      (hrests _ g).mpr hg

end Serves

/-- A property that does not depend on the posts and jobs that a thread is busy with. -/
structure Suits (C : Conduct μ) (P : C.Standing → Prop) : Prop extends C.Minds P where
  trusting : ∀ job, C.trustsJob job
  calling : ∀ t i object, C.Keeping P (Proc.record t (.called i object))
  submitting : ∀ t i, C.Keeping P (Proc.record t (.submitted i))
  answering : ∀ t id outcome, C.Keeping P (Proc.record t (.answered id outcome))
  selecting : ∀ t b event, C.Keeping P (selecting t b event)

namespace Suits

section Posts

variable (h : C.Suits P) {client : Client μ} (hclient : C.Tolerates P client) (t : Thread)

include h hclient

theorem deliverAll (policy : ErrorPolicy) (failures : List Failure) (ds : List Delivery) :
    C.Keeping P (deliverAll client t policy failures ds) := by
  induction ds generalizing failures with
  | nil => exact keeping_done _
  | cons d ds ih =>
    refine (h.runHandler t hclient d fun object => h.calling t _ object).bind fun reaction => ?_
    cases reaction with
    | fine => exact ih failures
    | panicked payload => exact (h.tellAll t hclient _ _).bind fun _ => keeping_done _
    | failed error =>
      refine (h.tellAll t hclient _ _).bind fun failure => ?_
      cases policy with
      | propagate => exact keeping_done _
      | collect => exact ih _

theorem submitAll (e : ExecutorId) (ds : List Delivery) :
    C.Keeping P (submitAll client t e ds) := by
  induction ds with
  | nil => exact keeping_done _
  | cons d ds ih =>
    refine (h.ordinary (.readExecutor e) rfl).bind fun executor => ?_
    refine (h.submitting t d.invocation).bind fun _ => ?_
    refine (h.submit t hclient e (h.trusting _)).bind fun answer => ?_
    cases answer with
    | ok _ => exact ih
    | error error =>
      exact (h.ordinary (.readBus d.invocation.bus) rfl).bind fun _ =>
        (h.log t).bind fun _ => keeping_done _

theorem post (b : BusId) (event : Event) : C.Keeping P (post client t b event) := by
  rw [post_eq]
  refine (h.selecting t b event).bind ?_
  rintro ⟨id, selected, bus⟩
  have hanswered : ∀ outcome, C.Keeping P ((Proc.record t (.answered id outcome)).bind fun _ =>
      (.done outcome : Proc μ Outcome)) :=
    fun outcome => (h.answering t id outcome).bind fun _ => keeping_done _
  cases hdiscipline : bus.discipline with
  | publisher =>
    simp only [delivering, hdiscipline]
    exact (h.deliverAll hclient t _ _ _).bind hanswered
  | executor e =>
    simp only [delivering, hdiscipline]
    exact (h.submitAll hclient t e _).bind hanswered

end Posts

theorem serves (h : C.Suits P) : C.Serves fun _ : Unit => P where
  minds _ := h.toMinds
  working _ _ := h.trusting _
  picking _ e place g hg := (h.ordinary (.pick e place) rfl g hg).mono fun _ _ hg =>
    ⟨hg, fun _ _ => h.trusting _⟩
  calling _ t d _ object _ := h.calling t d.invocation object
  posting _ hclient _ t b event := h.post (hclient ()) t b event

end Suits

end Conduct

end PubSub
