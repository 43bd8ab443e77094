import PubSub.Proofs.Completion
import PubSub.Proofs.Storage
import PubSub.Proofs.Tours

/-!
# Posts to an executor that may refuse

A post on a bus with an executor answers once the executor has taken the job of every delivery, or as
soon as it refuses one. What it has taken stays with it. The refused delivery is lost, and everyone is
told. The deliveries behind it never come to anybody.
-/
namespace PubSub

variable {μ α : Type} {client : Client μ} {name : Thread} {e : ExecutorId} {label : String}
  {error : BusError} {d : Delivery} {ds before rest : List Delivery} {deeds : List (Deed μ)}
  {outcome : Outcome}

/-- The executor takes the job of a delivery. -/
def Deed.Accepts (deed : Deed μ) (e : ExecutorId) (job : Job) : Prop :=
  deed = .step (.offer e job) true ∨ deed = .step (.send e job) true

theorem HandsTo.exists_accepts {job : Job} {x : Executor} (h : HandsTo e job x (some true) deeds) :
    ∃ deed ∈ deeds, deed.Accepts e job := by
  cases h with
  | offered => exact ⟨_, by simp, .inl rfl⟩
  | sent => exact ⟨_, by simp, .inr rfl⟩

theorem AcceptsAll.exists_accepts (h : AcceptsAll name e label ds deeds) (hd : d ∈ ds) :
    ∃ deed ∈ deeds, deed.Accepts e (.delivery d label) := by
  induction h with
  | nil => cases hd
  | cons x accepts others ih =>
    rcases List.mem_cons.mp hd with rfl | hd
    · obtain ⟨deed, hdeed, haccepts⟩ := accepts.exists_accepts
      exact ⟨deed, by simp [hdeed], haccepts⟩
    · obtain ⟨deed, hdeed, haccepts⟩ := ih hd
      exact ⟨deed, by simp [hdeed], haccepts⟩

theorem Submits.exists_accepts (h : Submits client name e label error before rest deeds outcome)
    (hd : d ∈ before) : ∃ deed ∈ deeds, deed.Accepts e (.delivery d label) := by
  cases h with
  | all accepts => exact accepts.exists_accepts hd
  | stopped x bus note accepts =>
    obtain ⟨deed, hdeed, haccepts⟩ := accepts.exists_accepts hd
    exact ⟨deed, List.mem_append_left _ hdeed, haccepts⟩

/-- Before a post answers with a refusal, the refused delivery is written off. -/
theorem Submits.written_off (h : Submits client name e label error before rest deeds outcome)
    (hd : rest.head? = some d) :
    .step (.record name (.dropped d.invocation label)) () ∈ deeds ∧
      .step (.record name (.settled d.invocation)) () ∈ deeds := by
  cases h with
  | all => cases hd
  | stopped x bus note accepts refuses refused drops =>
    cases hd
    obtain ⟨hdropped, hsettled⟩ := written_of_ends_dropJob drops
    constructor <;> simp [hdropped, hsettled]

/-- The answer of a post that has submitted its deliveries. -/
theorem Submits.outcome_eq (h : Submits client name e label error before rest deeds outcome) :
    outcome = if rest.isEmpty then .ok else .failed error := by
  cases h <;> rfl

/-- A post that has nothing to deliver leaves the executor alone. -/
theorem Submits.idle (h : Submits client name e label error before rest deeds outcome)
    (hnone : before ++ rest = []) : deeds = [] := by
  obtain ⟨rfl, rfl⟩ := List.append_eq_nil_iff.mp hnone
  cases h with
  | all accepts =>
    cases accepts
    rfl

/-- The executor took the job of a delivery. The job stays with it until somebody takes it, and running
the job calls the handler. -/
structure Deferred (β : Behaviour μ) (e : ExecutorId) (label : String) (trace : Trace μ)
    (m : Machine μ α) (d : Delivery) : Prop where
  stays : .delivery d label ∈ (m.world.executor e).jobs ∨
    ∃ t deed, (t, deed) ∈ trace ∧ deed.Takes (.delivery d label)
  fate : ∃! fate : Fate, fate.Meets trace m d.invocation
  delivers : ∃ object, m.world.Casts d.invocation object ∧ ∀ n name deeds ended,
    Proc.Ends (runJob (β.client (β.perform n name)) name (.delivery d label)) deeds ended →
      .step (.record name (.called d.invocation object)) () ∈ deeds

/-- Nothing at all has happened about an invocation. -/
structure Untouched (trace : Trace μ) (m : Machine μ α) (i : Invocation) : Prop where
  account : m.world.account i = []
  jobs : m.world.jobs.countP (Job.isOf i) = 0
  deeds : ∀ entry ∈ trace, entry.2.accepted? ≠ some i ∧ entry.2.taken? ≠ some i

/-- The executor took the jobs of the first deliveries of a post and refused the next one, if there is
one. -/
structure HandsOver (β : Behaviour μ) (e : ExecutorId) (label : String) (trace : Trace μ)
    (m : Machine μ α) (id : PostId) (before rest : List Delivery) : Prop where
  submitted : (m.world.story id).filterMap Occurrence.submitted? =
    (before ++ rest.take 1).map Delivery.invocation
  deferred : ∀ d ∈ before, Deferred β e label trace m d
  abandoned : ∀ d ∈ rest.head?, m.world.account d.invocation = .submitted d.invocation ::
    .dropped d.invocation label :: (m.world.reports d.invocation (.abandoned label) ++
      [.settled d.invocation])
  untouched : ∀ d ∈ rest.tail, Untouched trace m d.invocation
  /-- A handler is called only after somebody has taken its job from the executor. -/
  calls : ∀ d ∈ before ++ rest, ∀ (later earlier : Trace μ) t name object,
    trace = later ++ (t, .step (.record name (.called d.invocation object)) ()) :: earlier →
      ∃ u deed, (u, deed) ∈ earlier ∧ deed.taken? = some d.invocation

section Runs

variable {β : Behaviour μ} {depth : Nat} {memory : μ} {body : Body μ α} {trace later : Trace μ}
  {m m' : Machine μ α} {b : BusId} {i : Invocation} {id : PostId} {t : Turn}

/-- What has not even been submitted is in no place that an executor knows of. -/
theorem Run.untouched (h : Run β depth memory body trace m) (haccount : m.world.account i = []) :
    Untouched trace m i := by
  obtain ⟨p, hp⟩ := (Outlook.located h.protocol.1 i).somewhere
  have hplace : p.all Place.isUntaken = true ∧ p.all Place.isUnaccepted = true ∧
      p.all (fun p => !p.isStored) = true := by
    have htells := hp.tells
    rw [haccount] at htells
    generalize hnil : ([] : List Occurrence) = account at htells
    cases htells with
    | nowhere => exact ⟨rfl, rfl, rfl⟩
    | unborn => exact ⟨rfl, rfl, rfl⟩
    | planned => exact ⟨rfl, rfl, rfl⟩
    | @held job phase _ story =>
      obtain ⟨hopening, -⟩ := List.append_eq_nil_iff.mp hnil.symm
      cases job with
      | false => exact ⟨rfl, rfl, rfl⟩
      | true => cases phase <;> cases hopening
    | stored => cases hnil
    | settled => cases hnil
  obtain ⟨huntaken, hunaccepted, hunstored⟩ := hplace
  refine ⟨haccount, ?_, fun entry hentry => ⟨hp.unaccepted hunaccepted entry hentry,
    hp.untaken huntaken entry hentry⟩⟩
  rw [Outlook.countP_isOf (Outlook.of trace m.world) trace, hp.place]
  cases p with
  | none => rfl
  | some p =>
    have hnone : p.isStored = false := by simpa using hunstored
    simp [hnone]

theorem Outlook.called_not_mem_reports {O : Outlook} {phase : Phase} {object : Object} :
    .called i object ∉ O.reports i phase := by
  rw [reports]
  split
  · exact List.not_mem_nil
  · intro hmem
    obtain ⟨_, -, heq⟩ := List.mem_map.mp hmem
    cases heq

/-- While a call is the latest that has happened about a submitted invocation, a thread that has taken its
job is at it. -/
theorem Outlook.Tells.of_last_called {O : Outlook} {place : Option Place} {l : List Occurrence}
    {object : Object} (h : O.Tells i place (l ++ [.called i object]))
    (hsubmitted : .submitted i ∈ l ++ [.called i object]) : ∃ phase, place = some (.held true phase) := by
  generalize hlast : l ++ [.called i object] = account at h hsubmitted
  have hcalled : .called i object ∈ account := hlast ▸ List.mem_append_right _ (List.mem_singleton_self _)
  cases h with
  | nowhere unsubmitted => exact absurd hsubmitted unsubmitted
  | unborn => cases hsubmitted
  | planned => cases hsubmitted
  | stored => cases List.mem_singleton.mp hcalled
  | settled =>
    rw [← List.cons_append] at hlast
    cases (List.append_inj' hlast rfl).2
  | @held job phase _ story =>
    cases job with
    | true => exact ⟨phase, rfl⟩
    | false =>
      cases story with
      | offered => cases List.mem_singleton.mp hcalled
      | taken => cases hsubmitted
      | running => cases List.mem_singleton.mp hsubmitted
      | ended bound => exact absurd hsubmitted (Outlook.Story.ended bound).submitted_not_mem
      | @lost executor told =>
        rcases List.mem_cons.mp hcalled with heq | hcalled
        · cases heq
        rcases List.mem_cons.mp hcalled with heq | hcalled
        · cases heq
        exact absurd hcalled Outlook.called_not_mem_reports

/-- What is called has been submitted before, unless the bus delivers in the publisher's thread. -/
theorem Run.submitted_of_called (h : Run β depth memory body trace m) {before : Trace μ} {object : Object}
    (htrace : trace = (t, .step (.record name (.called i object)) ()) :: before)
    (hdiscipline : (m.world.bus i.bus).discipline ≠ .publisher) :
    .submitted i ∈ m.world.account i := by
  subst htrace
  obtain ⟨_, _, -, hallowed, -⟩ := h.rounds.last_step
  have hvouches : Rounds.Vouches m.world _ (.called i object) := hallowed
  have hvisit : m.world.visit? (.called i object) = none := if_neg hdiscipline
  simp only [Rounds.Vouches, hvisit, Option.elim_none] at hvouches
  rw [World.account_eq]
  exact List.mem_filter.mpr ⟨hvouches, decide_eq_true rfl⟩

/-- A handler of a bus with an executor is called only after somebody has taken its job. -/
theorem Run.taken_of_called (h : Run β depth memory body trace m) {after earlier : Trace μ}
    {object : Object}
    (htrace : trace = after ++ (t, .step (.record name (.called i object)) ()) :: earlier)
    (hdiscipline : (m.world.bus i.bus).discipline ≠ .publisher) :
    ∃ u deed, (u, deed) ∈ earlier ∧ deed.taken? = some i := by
  obtain ⟨m₀, m₁, hcourse, hmoved, hdeeds, hafter⟩ := h.ofStart.exists_moment htrace
  have hbefore := Run.of_course hcourse
  have hnow := hbefore.turn hmoved
  rw [hdeeds, List.map_singleton, List.singleton_append] at hnow
  have hthen : (m₁.world.bus i.bus).discipline ≠ .publisher := by
    obtain ⟨-, table, route, hkept, -⟩ := hnow.called List.mem_cons_self
    rwa [← hafter.busesExtend.discipline (World.isOpen_of_get?_tables hkept)]
  have hsubmitted := hnow.submitted_of_called rfl hthen
  have haccount : m₁.world.account i = m₀.world.account i ++ [.called i object] := by
    rw [hnow.protocol.1.account, hbefore.protocol.1.account, List.reverse_cons, List.flatMap_append,
      List.flatMap_singleton, Outlook.said_record name rfl]
  obtain ⟨p, hp⟩ := (Outlook.located hnow.protocol.1 i).somewhere
  have htells := hp.tells
  rw [haccount] at htells hsubmitted
  obtain ⟨phase, rfl⟩ := htells.of_last_called hsubmitted
  obtain ⟨u, -, deed, hmem, htaken⟩ := hnow.exists_at_work hp
  rcases List.mem_cons.mp hmem with heq | hmem
  · cases heq
    cases htaken
  · exact ⟨u, deed, hmem, htaken⟩

/-- The executor has stored the job of a delivery, and it is there until somebody takes it. -/
theorem Machine.Course.stays (hcourse : m.Course β depth later m') {deed : Deed μ}
    (hmem : (t, deed) ∈ later) {job : Job} (haccepts : deed.Accepts e job) :
    job ∈ (m'.world.executor e).jobs ∨ ∃ u deed, (u, deed) ∈ later ∧ deed.Takes job := by
  have hkept : ∀ (s : Step μ) (reply : s.Reply), deed = .step s reply →
      job ∈ (m'.world.executor e).jobs ∨ ∃ u deed, (u, deed) ∈ later ∧ deed.Takes job := by
    rintro s reply rfl
    obtain ⟨before, after, m₁, m₂, rfl, -, hrun, hafter⟩ := hcourse.exists_step hmem
    rcases hafter.mem_jobs (Step.mem_jobs_of_accepted hrun haccepts) with
      hstays | ⟨u, deed, hdeed, htakes⟩
    · exact .inl hstays
    · exact .inr ⟨u, deed, List.mem_append_left _ hdeed, htakes⟩
  rcases haccepts with heq | heq
  · exact hkept _ _ heq
  · exact hkept _ _ heq

/-- The table that a bus keeps takes the event of a post to each handler that it has found. -/
theorem Run.exists_casts (h : Run β depth memory body trace m) {bus : Bus}
    (hread : (t, .step (.readBus b) bus) ∈ trace) {event : Event} {table : Table}
    (hkept : (m.world.bus b).tables.get? event.type = some table)
    (hd : d ∈ deliveries id b event (bus.roster.select table)) :
    ∃ object, m.world.Casts d.invocation object ∧
      d.route.follow d.invocation.event d.invocation.subscription.topic = some object := by
  obtain ⟨⟨s, place⟩, hs, rfl⟩ := List.mem_map.mp hd
  obtain ⟨⟨topic, route⟩, hentry, hs⟩ := List.mem_flatMap.mp (List.fst_mem_of_mem_zipIdx hs)
  obtain ⟨subscription, hlisted, rfl⟩ := List.mem_map.mp hs
  obtain ⟨⟨-, -, -, htopics⟩, -⟩ := h.trusts hread
  obtain rfl := htopics topic subscription hlisted
  obtain ⟨-, hcarries⟩ := (Activities.isSound_of_lawful h.activities.1 b).tables event.type table hkept
  obtain ⟨object, hroute⟩ := hcarries _ hentry
  have hfollow : route.follow event subscription.topic = some (object event) := by
    rw [hroute, if_pos ⟨rfl, rfl⟩]
  exact ⟨object event, ⟨table, route, hkept, hentry, hfollow⟩, hfollow⟩

/-- What has been submitted, and dropped by an executor, and settled, has been lost. -/
theorem Run.account_of_dropped (h : Run β depth memory body trace m)
    (hsubmitted : .submitted i ∈ m.world.account i) (hdropped : .dropped i label ∈ m.world.account i)
    (hsettled : .settled i ∈ m.world.account i) :
    m.world.account i = .submitted i :: .dropped i label ::
      (m.world.reports i (.abandoned label) ++ [.settled i]) := by
  have hnot : ∀ cause, .dropped i label ∉ m.world.reports i cause := by
    intro cause hmem
    obtain ⟨_, -, heq⟩ := List.mem_map.mp hmem
    cases heq
  obtain ⟨fate, hfate⟩ := h.exists_fate hsubmitted
  have hover := hfate.isOver_iff.mpr hsettled
  cases fate with
  | waiting => cases hover
  | underway => cases hover
  | run =>
    obtain ⟨-, -, object, r, -, haccount⟩ := hfate
    rw [haccount] at hdropped
    cases hcause : r.cause? with
    | none => simp [hcause] at hdropped
    | some cause => simp [hcause, hnot] at hdropped
  | lost =>
    obtain ⟨-, executor, haccount⟩ := hfate
    rw [haccount] at hdropped
    have hsame : label = executor := by simpa [hnot] using hdropped
    rw [haccount, hsame]

/-- What a post on a bus with an executor submits is all that it visits. -/
theorem World.submitted_of_visits {w : World μ} {visited : List Invocation}
    (hvisits : (w.story id).filterMap w.visit? = visited)
    (hdiscipline : ∀ i ∈ visited, (w.bus i.bus).discipline ≠ .publisher) :
    (w.story id).filterMap Occurrence.submitted? = visited := by
  rw [← hvisits]
  apply List.filterMap_congr
  intro o ho
  cases o with
  | called i object =>
    refine (if_neg fun hpublisher => ?_).symm
    refine hdiscipline i ?_ hpublisher
    rw [← hvisits]
    exact List.mem_filterMap.mpr ⟨_, ho, if_pos hpublisher⟩
  | _ => rfl

/-- Once a post has submitted a delivery, nothing happens about those that it has not submitted. -/
theorem Run.account_eq_nil (h : Run β depth memory body trace m) {j : Invocation}
    (hj : .submitted j ∈ m.world.story i.post) (hi : .submitted i ∉ m.world.story i.post) :
    m.world.account i = [] := by
  obtain ⟨matched, lines, hstory, hhanded, -⟩ := (h.recounted.kept i.post).exists_handed hj
  rw [World.account_eq, List.filter_eq_nil_iff]
  intro o ho hsame
  have hsame := of_decide_eq_true hsame
  rw [hstory] at ho hi
  rcases List.mem_cons.mp ho with rfl | ho
  · cases hsame
  · exact hi (List.mem_cons_of_mem _ (hhanded.isRemote o ho i hsame))

section Post

variable {n : Nat} {event : Event} {table : Table} {seen : Bus} {finding own : List (Deed μ)}

theorem FindsHandlers.bus_of_mem (h : FindsHandlers name b event table id ds seen deeds)
    (hd : d ∈ ds) : d.invocation.post = id ∧ d.invocation.bus = b := by
  cases h with
  | selected bus again note lookup view =>
    subst view
    obtain ⟨hpost, hbus, -⟩ := Activities.bus_deliveries _ (List.mem_map_of_mem hd)
    exact ⟨hpost, hbus⟩

theorem FindsHandlers.nodup (h : FindsHandlers name b event table id ds seen deeds) :
    (ds.map Delivery.invocation).Nodup := by
  cases h with
  | selected bus again note lookup view => exact view ▸ Outlook.nodup_deliveries

theorem FindsHandlers.mem_selected (h : FindsHandlers name b event table id ds seen deeds) :
    .step (.record name (.selected id (ds.map Delivery.invocation))) () ∈ deeds := by
  cases h with
  | selected => simp

/-- What a post has done by its answer has happened. -/
theorem mem_of_answered {last : Deed μ} (hdone : finding ++ (own ++ [last]) <+: later.deedsOf t)
    {deed : Deed μ} (hdeed : deed ∈ finding ++ own) : (t, deed) ∈ later := by
  refine Trace.mem_deedsOf.mp (hdone.subset ?_)
  rw [← List.append_assoc]
  exact List.mem_append_left _ hdeed

variable (h : Run β depth memory body trace m) (hcourse : m.Course β depth later m')
  (hdone : finding ++ (own ++ [.step (.record name (.answered id outcome)) ()]) <+: later.deedsOf t)
  (hfinds : FindsHandlers name b event table id (before ++ rest) seen finding)
  (hsubmits : Submits (β.client (β.perform n name)) name e label error before rest own outcome)
  (hdiscipline : (m'.world.bus b).discipline ≠ .publisher)

include h hcourse hdone hfinds hsubmits hdiscipline

/-- A post submits the deliveries that the executor takes and the first that it refuses. -/
theorem Run.submitted_of_post : (m'.world.story id).filterMap Occurrence.submitted? =
    (before ++ rest.take 1).map Delivery.invocation := by
  have hrun := h.course hcourse
  have hmem : ∀ deed ∈ finding ++ own, (t, deed) ∈ later ++ trace := fun deed hdeed =>
    List.mem_append_left trace (mem_of_answered hdone hdeed)
  -- When the thread writes down its answer, it has made the visits that its deeds show.
  obtain ⟨more, hdeeds⟩ := hdone
  rw [← List.append_assoc, List.append_assoc, List.singleton_append] at hdeeds
  obtain ⟨after, prior, rfl, hprior⟩ := Trace.exists_of_deedsOf hdeeds.symm
  have hset : Rounds.Has (⟨id, [], (before ++ rest).map Delivery.invocation⟩ ::
      ((Rounds.conduct m'.world).standing trace t).tours, [])
      (finding.foldl ((Rounds.conduct m'.world).next t) ((Rounds.conduct m'.world).standing trace t)) :=
    Rounds.has_of_finds hfinds
  have hclient : ∀ k, (Rounds.conduct m'.world).Tolerates (Rounds.Has k) (β.client (β.perform n name)) :=
    fun k => Conduct.tolerates_client β fun c => Rounds.serves.perform β n name c k
  obtain ⟨todo, hgone⟩ := Rounds.has_of_submits hclient hsubmits
    (fun s reply hown => hrun.trusts (hmem _ (List.mem_append_right finding hown))) hset
  rw [← List.foldl_append, ← hprior, ← Conduct.standing_append, List.nil_append] at hgone
  have hselected : .selected id ((before ++ rest).map Delivery.invocation) ∈ m'.world.story id :=
    hrun.rounds.mem_story (hmem _ (List.mem_append_left own hfinds.mem_selected)) rfl
  have hpart : (before ++ rest.take 1).map Delivery.invocation <+:
      (before ++ rest).map Delivery.invocation := by
    rw [List.map_append, List.map_append, List.prefix_append_right_inj]
    exact List.IsPrefix.map _ ⟨rest.drop 1, List.take_append_drop 1 rest⟩
  have hvisits := hrun.visits_of_tour hselected hfinds.nodup (List.append_assoc ..) hgone.1 hpart
  refine World.submitted_of_visits hvisits ?_
  intro i hi
  obtain ⟨d, hd, rfl⟩ := List.mem_map.mp (hpart.subset hi)
  rw [(hfinds.bus_of_mem hd).2]
  exact hdiscipline

theorem Run.submitted_mem_story_iff :
    .submitted i ∈ m'.world.story id ↔ i ∈ (before ++ rest.take 1).map Delivery.invocation := by
  rw [← h.submitted_of_post hcourse hdone hfinds hsubmits hdiscipline, List.mem_filterMap]
  simp only [Occurrence.submitted?_eq_some, exists_eq_right]

theorem Run.submitted_mem_account (hd : d ∈ before ++ rest.take 1) :
    .submitted d.invocation ∈ m'.world.account d.invocation := by
  have hpost : d.invocation.post = id := by
    refine (hfinds.bus_of_mem ?_).1
    rcases List.mem_append.mp hd with hd | hd
    · exact List.mem_append_left rest hd
    · exact List.mem_append_right before (List.mem_of_mem_take hd)
  have hstory := (h.submitted_mem_story_iff hcourse hdone hfinds hsubmits hdiscipline).mpr
    (List.mem_map_of_mem hd)
  rw [World.account_eq, hpost]
  exact List.mem_filter.mpr ⟨hstory, decide_eq_true rfl⟩

theorem Run.deferred_of_post (hkept : (m'.world.bus b).tables.get? event.type = some table)
    (hd : d ∈ before) : Deferred β e label (later ++ trace) m' d := by
  have hrun := h.course hcourse
  obtain ⟨deed, hdeed, haccepts⟩ := hsubmits.exists_accepts hd
  obtain ⟨fate, hfate⟩ := hrun.exists_fate
    (h.submitted_mem_account hcourse hdone hfinds hsubmits hdiscipline (List.mem_append_left _ hd))
  refine ⟨?_, ⟨fate, hfate, fun fate' hfate' => hfate'.unique hfate⟩, ?_⟩
  · have haccepted := mem_of_answered hdone (List.mem_append_right finding hdeed)
    refine (hcourse.stays haccepted haccepts).imp_right ?_
    exact fun ⟨u, taking, htaking, htakes⟩ => ⟨u, taking, List.mem_append_left trace htaking, htakes⟩
  · cases hfinds with
    | @selected first bus again note lookup view =>
      have hread : (t, .step (.readBus b) bus) ∈ later ++ trace :=
        List.mem_append_left trace (mem_of_answered hdone (by simp))
      obtain ⟨object, hcasts, hfollow⟩ :=
        hrun.exists_casts hread hkept (view ▸ List.mem_append_left rest hd)
      exact ⟨object, hcasts, fun n name deeds ended hends => called_of_ends_runJob hfollow hends⟩

theorem Run.abandoned_of_post (hd : d ∈ rest.head?) :
    m'.world.account d.invocation = .submitted d.invocation :: .dropped d.invocation label ::
      (m'.world.reports d.invocation (.abandoned label) ++ [.settled d.invocation]) := by
  have hrun := h.course hcourse
  have hfirst : d ∈ rest.take 1 := by
    rw [List.take_one]
    exact Option.mem_toList.mpr hd
  have hwritten : ∀ o, .step (.record name o) () ∈ own → o.invocation? = some d.invocation →
      o ∈ m'.world.account d.invocation := fun o ho hinvocation =>
    hrun.protocol.1.mem_account (List.mem_append_left trace
      (mem_of_answered hdone (List.mem_append_right finding ho))) hinvocation
  obtain ⟨hdropped, hsettled⟩ := hsubmits.written_off hd
  exact hrun.account_of_dropped
    (h.submitted_mem_account hcourse hdone hfinds hsubmits hdiscipline
      (List.mem_append_right before hfirst))
    (hwritten _ hdropped rfl) (hwritten _ hsettled rfl)

theorem Run.untouched_of_post (hd : d ∈ rest.tail) : Untouched (later ++ trace) m' d.invocation := by
  cases rest with
  | nil => cases hd
  | cons first after =>
    have hpost : d.invocation.post = id :=
      (hfinds.bus_of_mem (List.mem_append_right before (List.mem_cons_of_mem first hd))).1
    have hstory : ∀ i, .submitted i ∈ m'.world.story d.invocation.post ↔
        i ∈ (before ++ [first]).map Delivery.invocation := fun i =>
      hpost ▸ h.submitted_mem_story_iff hcourse hdone hfinds hsubmits hdiscipline
    have hfirst : .submitted first.invocation ∈ m'.world.story d.invocation.post := by
      rw [hstory]
      simp
    have hnodup := hfinds.nodup
    rw [← List.singleton_append, ← List.append_assoc, List.map_append] at hnodup
    refine (h.course hcourse).untouched ((h.course hcourse).account_eq_nil hfirst fun hagain => ?_)
    exact List.disjoint_of_nodup_append hnodup ((hstory _).mp hagain) (List.mem_map_of_mem hd)

theorem Run.handsOver (hkept : (m'.world.bus b).tables.get? event.type = some table) :
    HandsOver β e label (later ++ trace) m' id before rest where
  submitted := h.submitted_of_post hcourse hdone hfinds hsubmits hdiscipline
  deferred _ hd := h.deferred_of_post hcourse hdone hfinds hsubmits hdiscipline hkept hd
  abandoned _ hd := h.abandoned_of_post hcourse hdone hfinds hsubmits hdiscipline hd
  untouched _ hd := h.untouched_of_post hcourse hdone hfinds hsubmits hdiscipline hd
  calls d hd after earlier u caller object hcalled := by
    refine (h.course hcourse).taken_of_called hcalled ?_
    rw [(hfinds.bus_of_mem hd).2]
    exact hdiscipline

end Post

/-- How the posts of a bus go on, whose executor has this name and answers this to a job that it does not
take. -/
structure PostsThrough (β : Behaviour μ) (depth : Nat) (trace : Trace μ) (m : Machine μ α) (b : BusId)
    (e : ExecutorId) (label : String) (error : BusError) : Prop where
  /-- A post finds its handlers without the executor. Then it submits their deliveries one after another,
  up to the first that the executor refuses, and answers accordingly. -/
  concludes : ∀ later m' t name n event deeds outcome, m.Course β depth later m' →
    deeds <+: later.deedsOf t → Proc.Ends (β.perform (n + 1) name (.post b event)) deeds outcome →
    ∃ id table seen before rest finding own,
      deeds = finding ++ (own ++ [.step (.record name (.answered id outcome)) ()]) ∧
      (m'.world.bus b).tables.get? event.type = some table ∧
      FindsHandlers name b event table id (before ++ rest) seen finding ∧
      (∀ deed ∈ finding, deed.consults = false) ∧
      Submits (β.client (β.perform n name)) name e label error before rest own outcome ∧
      (before ++ rest = [] → own = []) ∧ outcome = (if rest.isEmpty then .ok else .failed error) ∧
      HandsOver β e label (later ++ trace) m' id before rest
  /-- If the executor makes nobody wait and the observers do not either, then at each moment of a post its
  thread can come to the end of it without the help of others. -/
  returns : (m.world.executor e).view.kind = .manual → ∀ later m' t name n event next,
    m.world.Observed b e (β.client (β.perform n name)) → m.Course β depth later m' →
    m.program? t = some ((β.perform (n + 1) name (.post b event)).bind next) →
    ∃ more m'' deeds outcome, m'.Course β depth more m'' ∧ (∀ entry ∈ more, entry.1 = t) ∧
      deeds <+: (more ++ later).deedsOf t ∧
      Proc.Ends (β.perform (n + 1) name (.post b event)) deeds outcome

/-- Whatever the order of turns, and whatever handlers and observers do: a post on a bus with an executor
submits one job for each handler in their order, until the executor refuses one. It keeps those that it
has taken. The handler of the refused one is reported as abandoned to everyone before the post answers
what the executor says, and the handlers behind it never hear of the event. -/
theorem posts_hand_over_until_refused (h : Run β depth memory body trace m)
    (hdiscipline : (m.world.bus b).discipline = .executor e) (hopen : e < m.world.executors.length)
    (hrejection : (m.world.executor e).rejection? = some error) :
    PostsThrough β depth trace m b e (m.world.executor e).view.name error := by
  have hb : b < m.world.buses.length := by
    by_contra hclosed
    rw [World.bus, List.getElem?_eq_none (Nat.le_of_not_lt hclosed)] at hdiscipline
    cases hdiscipline
  constructor
  · intro later m' t name n event deeds outcome hcourse hdone hends
    have hrun := h.course hcourse
    have hlater : (m'.world.bus b).discipline = .executor e :=
      (hcourse.busesExtend.discipline hb).trans hdiscipline
    have hmem : ∀ deed ∈ deeds, (t, deed) ∈ later := fun deed hdeed =>
      Trace.mem_deedsOf.mp (hdone.subset hdeed)
    obtain ⟨table, hgoes⟩ := Call.exists_goesBy (c := .post b event) rfl hends
    cases hgoes with
    | @post _ _ finding last id ds seen _ finds delivering =>
      have hseen : seen.discipline = .executor e := by
        have hread : .step (.readBus b) seen ∈ finding := by
          cases finds with
          | selected => simp
        obtain ⟨⟨-, hsame, -⟩, -⟩ :=
          hrun.trusts (List.mem_append_left trace (hmem _ (List.mem_append_left last hread)))
        exact hsame.trans hlater
      obtain ⟨own, rfl, hown⟩ := ends_delivering hseen delivering
      have hmine : ∀ deed ∈ own, (t, deed) ∈ later := fun deed hdeed =>
        hmem deed (List.mem_append_right finding (List.mem_append_left _ hdeed))
      have hreads : ∀ x, .step (.readExecutor e) x ∈ own →
          x.view.name = (m.world.executor e).view.name ∧ x.rejection? = some error := by
        intro x hx
        have htraits := hcourse.traits_of_read hopen (hmine _ hx)
        exact ⟨congrArg (fun traits => traits.2.1) htraits,
          (congrArg (fun traits => traits.2.2) htraits).trans hrejection⟩
      have hmet : ∀ job, .step (.send e job) false ∉ own := fun job hjob =>
        hrun.send_ne_false (List.mem_append_left trace (hmine _ hjob))
      obtain ⟨before, rest, rfl, hsubmits⟩ := ends_submitAll hown hreads hmet
      have hkept : (m'.world.bus b).tables.get? event.type = some table := by
        obtain ⟨first, others, rfl, hlookup⟩ := finds.exists_lookup
        have hlooked : ∀ deed ∈ first, (t, deed) ∈ later ++ trace := fun deed hdeed =>
          List.mem_append_left trace (hmem deed (by simp [hdeed]))
        exact hlookup.kept (Latest.lawful hrun) hlooked
      refine ⟨id, table, seen, before, rest, finding, own, rfl, hkept, finds, finds.not_consults,
        hsubmits, hsubmits.idle, hsubmits.outcome_eq, ?_⟩
      have hremote : (m'.world.bus b).discipline ≠ .publisher := by simp [hlater]
      exact h.handsOver hcourse hdone finds hsubmits hremote hkept
  · intro hkind later m' t name n event next hobserved hcourse hprogram
    exact hcourse.exists_end hopen hkind hprogram (neverWaits_post hobserved hb name hdiscipline event)

end Runs

private def isFull : Option BusError → Bool
  | some (.rejected "yard" "full") => true
  | _ => false

/-- The first of two posts was refused, and the second was not. -/
private def wasRefusedOnce : List (Option (Outcome × Outcome)) → Bool
  | [some (.failed (.rejected "yard" "full"), .ok)] => true
  | _ => false

/-- The executor has room for two jobs, and the crew has four handlers. When the third is refused, the
observer makes room, so the next post is taken as a whole. -/
theorem posts_hand_over_until_refused_on_third :
    let tick : Event := ⟨⟨"Tick", "Tick", 0⟩, 0, ""⟩
    let crew : Subscriber := ⟨⟨"Crew", 0⟩, "crew",
      [⟨"first", true, .one .root, ⟨0⟩⟩, ⟨"second", true, .one .root, ⟨0⟩⟩,
        ⟨"third", true, .one .root, ⟨0⟩⟩, ⟨"fourth", true, .one .root, ⟨0⟩⟩]⟩
    let β : Behaviour Unit := {
      handle _ _ := .done .fine
      observe _ _ := .step (.setRoom 0 none) fun _ => .done none
      work _ := .done none }
    let body : Body Unit (Outcome × Outcome) :=
      .step (.openManual "yard" (some 2) (.rejected "yard" "full")) fun e =>
        .step (.openBus ⟨"main", .propagate, [.custom "watch" "watch" ⟨0⟩]⟩ (.executor e)) fun b =>
          .step (.register b crew) fun _ => .step (.post b tick) fun first =>
            .step (.post b tick) fun second => .done (first, second)
    ∃ trace m, Run β 2 () body trace m ∧ (m.world.bus 0).discipline = .executor 0 ∧
      0 < m.world.executors.length ∧ (m.world.executor 0).rejection? = some (.rejected "yard" "full") ∧
      (∀ name, m.world.Observed 0 0 (β.client (β.perform 1 name))) ∧
      (∃ later m', m.Course β 2 later m' ∧
        m'.results = [some (.failed (.rejected "yard" "full"), .ok)]) ∧
      PostsThrough β 2 trace m 0 0 "yard" (.rejected "yard" "full") := by
  intro tick crew β body
  have hseen : ((Machine.start β 2 () body).play β 2 (List.replicate 6 (.caller 0))).any (fun run =>
      (run.2.world.bus 0).discipline = .executor 0 ∧ 0 < run.2.world.executors.length ∧
      (run.2.world.executor 0).view.name = "yard" ∧ isFull (run.2.world.executor 0).rejection? = true ∧
      (run.2.play β 2 (List.replicate 54 (.caller 0))).any (fun on => wasRefusedOnce on.2.results) =
        true) = true := by
    decide +kernel
  obtain ⟨trace, m, hrun, hfacts⟩ := Run.exists_of_play hseen
  obtain ⟨hdiscipline, hopen, hname, hfull, hlater⟩ := of_decide_eq_true hfacts
  obtain ⟨⟨later, m'⟩, hgoing, hanswers⟩ := (Option.any_eq_true ..).mp hlater
  have hrejection : (m.world.executor 0).rejection? = some (.rejected "yard" "full") := by
    unfold isFull at hfull
    split at hfull
    · assumption
    · cases hfull
  have hresults : m'.results = [some (.failed (.rejected "yard" "full"), .ok)] := by
    unfold wasRefusedOnce at hanswers
    split at hanswers
    · assumption
    · cases hanswers
  refine ⟨trace, m, hrun, hdiscipline, hopen, hrejection, ?_,
    ⟨later, m', Machine.course_of_play hgoing, hresults⟩, ?_⟩
  · intro name label title code _ failure
    exact (Proc.neverWaits_free fun _ => rfl).bind fun _ _ => trivial
  · have hposts := posts_hand_over_until_refused hrun hdiscipline hopen hrejection
    rwa [hname] at hposts

end PubSub
