import PubSub.Proofs.FirstUse
import PubSub.Proofs.WorkerPools

/-!
# How a post submits its deliveries

A post on a bus with an executor hands over one job for each delivery, in their order, until the executor
refuses one. That job is dropped, and the rejection is what the post answers. The post runs no handler
itself: its handlers are called by whoever runs the jobs.
-/
namespace PubSub

open Program

variable {μ α : Type} {client : Client μ} {name : Thread} {e : ExecutorId} {label : String}
  {error : BusError} {d : Delivery} {ds before rest : List Delivery} {deeds : List (Deed μ)}
  {outcome : Outcome}

/-- These deliveries are submitted one after another, and the executor takes their jobs. -/
inductive AcceptsAll (name : Thread) (e : ExecutorId) (label : String) :
    List Delivery → List (Deed μ) → Prop where
  | nil : AcceptsAll name e label [] []
  | cons {d : Delivery} {ds : List Delivery} {handed later : List (Deed μ)} {y : Executor} (x : Executor)
      (accepts : HandsTo e (.delivery d label) y (some true) handed)
      (rest : AcceptsAll name e label ds later) :
      AcceptsAll name e label (d :: ds) (.step (.readExecutor e) x ::
        .step (.record name (.submitted d.invocation)) () :: (handed ++ later))

/-- A post submits its deliveries: the executor takes the jobs of the first ones, and then either none is
left, or it does not take the next one. No other delivery is touched. -/
inductive Submits (client : Client μ) (name : Thread) (e : ExecutorId) (label : String)
    (error : BusError) : List Delivery → List Delivery → List (Deed μ) → Outcome → Prop where
  | all {before : List Delivery} {deeds : List (Deed μ)}
      (accepts : AcceptsAll name e label before deeds) :
      Submits client name e label error before [] deeds .ok
  | stopped {before after : List Delivery} {d : Delivery} {accepting handed dropping : List (Deed μ)}
      {y : Executor} {taken : Option Bool} (x : Executor) (bus : Bus) (note : LogRecord)
      (accepts : AcceptsAll name e label before accepting)
      (refuses : HandsTo e (.delivery d label) y taken handed) (refused : taken ≠ some true)
      (drops : Proc.Ends (dropJob client name (.delivery d label)) dropping ()) :
      Submits client name e label error before (d :: after)
        (accepting ++ .step (.readExecutor e) x :: .step (.record name (.submitted d.invocation)) () ::
          (handed ++ (dropping ++ [.step (.readBus d.invocation.bus) bus,
            .step (.record name (.logged note)) ()])))
        (.failed error)

theorem Submits.cons {handed : List (Deed μ)} {y : Executor} (x : Executor)
    (h : Submits client name e label error before rest deeds outcome)
    (accepts : HandsTo e (.delivery d label) y (some true) handed) :
    Submits client name e label error (d :: before) rest (.step (.readExecutor e) x ::
      .step (.record name (.submitted d.invocation)) () :: (handed ++ deeds)) outcome := by
  cases h with
  | all accepted => exact .all (.cons x accepts accepted)
  | @stopped after refusedOne _ _ _ _ _ x' bus note accepted refuses refused drops =>
    have hstopped : Submits client name e label error (d :: before) (refusedOne :: after) _ _ :=
      .stopped x' bus note (.cons x accepts accepted) refuses refused drops
    simpa only [List.cons_append, List.append_assoc] using hstopped

theorem HandsTo.mem_read {job : Job} {x : Executor} {taken : Option Bool}
    (h : HandsTo e job x taken deeds) : .step (.readExecutor e) x ∈ deeds := by
  cases h <;> exact List.mem_cons_self

/-- The executor keeps its name and its rejection, and nobody is told that the queue is closed. -/
theorem ends_submitAll (h : Proc.Ends (submitAll client name e ds) deeds outcome)
    (hreads : ∀ x, .step (.readExecutor e) x ∈ deeds → x.view.name = label ∧ x.rejection? = some error)
    (hmet : ∀ job, .step (.send e job) false ∉ deeds) :
    ∃ before rest, ds = before ++ rest ∧ Submits client name e label error before rest deeds outcome := by
  induction ds generalizing deeds with
  | nil =>
    obtain ⟨rfl, rfl⟩ := Proc.ends_done h
    exact ⟨[], [], rfl, .all .nil⟩
  | cons d ds ih =>
    obtain ⟨x, deeds, rfl, hrecord⟩ := Proc.ends_ask_bind h
    obtain ⟨_, deeds, rfl, hsubmitting⟩ := Proc.ends_ask_bind hrecord
    obtain ⟨answer, submitting, later, hsubmit, hlater, rfl⟩ := Proc.ends_bind hsubmitting
    obtain ⟨y, taken, handed, settled, rfl, hhanded, hsettled⟩ := ends_submit hsubmit
    rw [(hreads x List.mem_cons_self).1] at hhanded hsettled
    have hdone : ∀ deed ∈ handed ++ settled ++ later, deed ∈ Deed.step (.readExecutor e) x ::
        .step (.record name (.submitted d.invocation)) () :: (handed ++ settled ++ later) :=
      fun deed hdeed => List.mem_cons_of_mem _ (List.mem_cons_of_mem _ hdeed)
    have hread : .step (.readExecutor e) y ∈ handed ++ settled ++ later :=
      List.mem_append_left _ (List.mem_append_left _ hhanded.mem_read)
    have hrejection := (hreads y (hdone _ hread)).2
    rcases ends_settling hsettled with ⟨rfl, rfl, rfl⟩ | ⟨rfl, hkind⟩ | ⟨hrefused, hdrops, rfl⟩
    · obtain ⟨before, rest, rfl, hothers⟩ := ih hlater
        (fun x hx => hreads x (hdone _ (List.mem_append_right _ hx)))
        (fun job hjob => hmet job (hdone _ (List.mem_append_right _ hjob)))
      rw [List.append_nil]
      exact ⟨d :: before, rest, rfl, hothers.cons x hhanded⟩
    · cases hhanded with
      | offered => cases hkind
      | sent => exact absurd (hdone _ (by simp)) (hmet (.delivery d label))
    · rw [hrejection] at hlater
      obtain ⟨bus, later, rfl, hlog⟩ := Proc.ends_ask_bind hlater
      obtain ⟨_, later, rfl, hlast⟩ := Proc.ends_ask_bind hlog
      obtain ⟨rfl, rfl⟩ := Proc.ends_done hlast
      refine ⟨[], d :: ds, rfl, ?_⟩
      rw [List.append_assoc]
      exact .stopped x bus _ .nil hhanded hrefused hdrops

/-- In the end a post writes down what it answers. -/
theorem ends_delivering {id : PostId} {seen : Bus} (hseen : seen.discipline = .executor e)
    (h : Proc.Ends (delivering client name id ds seen) deeds outcome) :
    ∃ own, deeds = own ++ [.step (.record name (.answered id outcome)) ()] ∧
      Proc.Ends (submitAll client name e ds) own outcome := by
  simp only [delivering, hseen] at h
  obtain ⟨outcome', own, last, hown, hlast, rfl⟩ := Proc.ends_bind h
  obtain ⟨_, last, rfl, hdone⟩ := Proc.ends_ask_bind hlast
  obtain ⟨rfl, rfl⟩ := Proc.ends_done hdone
  exact ⟨own, rfl, hown⟩

/-- Something is asked of an executor. -/
def Deed.consults : Deed μ → Bool
  | .step (.readExecutor _) _ | .step (.offer _ _) _ | .step (.pick _ _) _ | .step (.borrow _) _ => true
  | .step (.send _ _) _ | .step (.giveBack _) _ | .step (.close _) _ | .step (.claim _) _ => true
  | .step (.join _ _) _ | .step (.setRoom _ _) _ | .step (.openExecutor _) _ | .took _ => true
  | _ => false

theorem FindsHandlers.not_consults {b : BusId} {event : Event} {table : Table} {id : PostId} {seen : Bus}
    (h : FindsHandlers name b event table id ds seen deeds) : ∀ deed ∈ deeds, deed.consults = false := by
  cases h with
  | selected bus again note lookup view => cases lookup <;> simp [Deed.consults]

theorem ends_exclusively {γ : Type} {b : BusId} {s : Subscription} {body : Proc μ γ} {a : γ}
    (h : Proc.Ends (exclusively name b s body) deeds a) :
    ∃ earlier during later, deeds = earlier ++ (during ++ later) ∧ Proc.Ends body during a := by
  rw [exclusively] at h
  by_cases hconcurrent : s.concurrent = true
  · rw [if_pos hconcurrent] at h
    exact ⟨[], deeds, [], (List.append_nil _).symm, h⟩
  · rw [if_neg hconcurrent] at h
    obtain ⟨lock, deeds, rfl, hacquire⟩ := Proc.ends_ask_bind h
    obtain ⟨_, deeds, rfl, hbody⟩ := Proc.ends_ask_bind hacquire
    obtain ⟨a', during, later, hduring, hrelease, rfl⟩ := Proc.ends_bind hbody
    obtain ⟨_, later, rfl, hunshare⟩ := Proc.ends_ask_bind hrelease
    obtain ⟨_, later, rfl, hlook⟩ := Proc.ends_ask_bind hunshare
    obtain ⟨bus, later, rfl, hlast⟩ := Proc.ends_ask_bind hlook
    have hsame : a = a' := by
      by_cases hpresent : bus.roster.contains s.id.owner = true
      · rw [if_pos hpresent] at hlast
        exact (Proc.ends_done hlast).2
      · rw [if_neg hpresent] at hlast
        obtain ⟨_, _, -, hdone⟩ := Proc.ends_ask_bind hlast
        exact (Proc.ends_done hdone).2
    exact ⟨[_, _], during, _, rfl, hsame ▸ hduring⟩

/-- Running the job of a delivery calls its handler. -/
theorem called_of_ends_runJob {object : Object} {ended : Option Payload}
    (hobject : d.route.follow d.invocation.event d.invocation.subscription.topic = some object)
    (h : Proc.Ends (runJob client name (.delivery d label)) deeds ended) :
    .step (.record name (.called d.invocation object)) () ∈ deeds := by
  obtain ⟨reaction, first, rest, hfirst, -, rfl⟩ := Proc.ends_bind h
  obtain ⟨earlier, during, later, rfl, hduring⟩ := ends_exclusively hfirst
  rw [hobject] at hduring
  obtain ⟨_, during, rfl, -⟩ := Proc.ends_ask_bind hduring
  simp

/-- Dropping the job of a delivery is written down, from its beginning to its end. -/
theorem written_of_ends_dropJob (h : Proc.Ends (dropJob client name (.delivery d label)) deeds ()) :
    .step (.record name (.dropped d.invocation label)) () ∈ deeds ∧
      .step (.record name (.settled d.invocation)) () ∈ deeds := by
  obtain ⟨_, deeds, rfl, htell⟩ := Proc.ends_ask_bind h
  obtain ⟨_, telling, last, -, hlast, rfl⟩ := Proc.ends_bind htell
  cases hlast with
  | step => simp

end PubSub
