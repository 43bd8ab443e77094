import PubSub.Proofs.Activities
import PubSub.Proofs.Grounds
import PubSub.Proofs.Registration

/-!
# What operations write about activities

One statement for each operation: which activities it needs and what it writes about them. Code of
clients reaches the library through calls only, so it leaves the activities as it found them.
-/
namespace PubSub

open Program Conduct

variable {μ : Type} {last : World μ}

namespace Activities

theorem freely_tableOf (t : Thread) (b : BusId) (type : EventType) :
    (conduct last).Freely (tableOf (μ := μ) t b type) fun table => table.Carries type := by
  refine (freely (s := .readBus b) rfl).bind ?_
  rintro bus ⟨-, -, htables, -⟩
  cases hkept : bus.tables.get? type with
  | some table => exact freely_done (htables type table hkept)
  | none =>
    refine (freely (s := .computeTable t b type) rfl).bind ?_
    exact fun table htable _ => obeys_ask htable fun _ hkept => ⟨rfl, hkept⟩

/-- What a route of a selection takes events of a type to, for the handler. -/
theorem freely_selection (t : Thread) (b : BusId) (type : EventType) :
    (conduct last).Freely (selection (μ := μ) t b type) fun found =>
      ∀ s ∈ found, ∃ object, s.route.Carries type s.subscription.topic object := by
  refine (freely_tableOf t b type).bind ?_
  intro table hcarries
  refine (freely (s := .readBus b) rfl).bind ?_
  rintro bus ⟨-, -, -, hroster⟩
  refine freely_done ?_
  intro s hs
  obtain ⟨⟨topic, route⟩, hentry, hs⟩ := List.mem_flatMap.mp hs
  obtain ⟨subscription, hmem, rfl⟩ := List.mem_map.mp hs
  obtain rfl := hroster _ _ hmem
  exact hcarries _ hentry

theorem freely_findHandlers (t : Thread) (b : BusId) (type : EventType) :
    (conduct last).Freely (findHandlers (μ := μ) t b type) fun found =>
      ∀ s ∈ found, ∃ object, s.route.Carries type s.subscription.topic object := by
  refine (freely_selection t b type).bind ?_
  intro found hfound
  refine (freely (s := .readBus b) rfl).bind ?_
  intro bus _
  by_cases hempty : found.isEmpty
  · simp only [hempty, if_true]
    exact freely_log.bind fun _ _ => freely_done hfound
  · simp only [hempty]
    exact freely_log.bind fun _ _ => freely_done hfound

theorem freely_register (t : Thread) (b : BusId) (s : Subscriber) :
    (conduct last).Freely (register (μ := μ) t b s) fun _ => True := by
  refine (freely (s := .record t (.listed ..)) rfl).bind fun _ _ => ?_
  refine (freely (s := .readBus b) rfl).bind fun bus _ => ?_
  cases hs : s.subscribe with
  | error e => exact freely_log.bind fun _ _ => freely_done trivial
  | ok subscriptions =>
    obtain rfl := Subscriber.subscribe_eq_ok hs
    have henrol : (conduct last).Freely (Proc.enrol (μ := μ) b s.owner s.subscriptions)
        fun _ => True := fun _ =>
      obeys_ask ⟨s.owner_subscriptions, s.nodup_subscriptions⟩
        fun _ _ => ⟨rfl, trivial⟩
    refine henrol.bind fun enrolled _ => ?_
    cases enrolled <;> exact freely_log.bind fun _ _ => freely_done trivial

theorem freely_unregister (t : Thread) (b : BusId) (owner : SubscriberId) (name : String) :
    (conduct last).Freely (unregister (μ := μ) t b owner name) fun _ => True := by
  refine (freely (s := .dismiss b owner) rfl).bind fun removed _ => ?_
  cases removed with
  | none => exact freely_done trivial
  | some removed =>
    refine (freely (s := .prune b) rfl).bind fun _ _ => ?_
    refine (freely (s := .readBus b) rfl).bind fun _ _ => ?_
    exact freely_log.bind fun _ _ => freely_done trivial

theorem freely_shutdown (t : Thread) (e : ExecutorId) :
    (conduct last).Freely (shutdown (μ := μ) t e) fun _ => True := by
  refine (freely (s := .close e) rfl).bind fun _ _ => ?_
  refine (freely (s := .claim e) rfl).bind fun workers _ => ?_
  refine freely_forEach workers ?_
  intro worker _
  by_cases hself : t = .worker e worker
  · simp only [if_pos hself]
    exact freely_done trivial
  · simp only [if_neg hself]
    exact (freely (s := .join e worker) rfl).mono fun _ _ => trivial

theorem freely_openExecutor {x : Executor} (h : x.jobs = []) :
    (conduct last).Freely (Proc.openExecutor (μ := μ) x) fun _ => True :=
  fun _ => obeys_ask h fun _ _ => ⟨rfl, trivial⟩

theorem freely_startPool (t : Thread) (settings : PoolSettings) :
    (conduct last).Freely (startPool (μ := μ) t settings) fun _ => True := by
  refine (freely_openExecutor rfl).bind fun _ _ => ?_
  exact freely_log.bind fun _ _ => freely_done trivial

/-- Code of clients that leaves the activities alone. -/
structure Spares (last : World μ) (client : Client μ) : Prop where
  handle : ∀ active body object,
    Keeps last active (client.handle body object) fun _ active' => active' = active
  observe : ∀ active body failure,
    Keeps last active (client.observe body failure) fun _ active' => active' = active
  work : ∀ active body, Keeps last active (client.work body) fun _ active' => active' = active

section Handling

variable {t : Thread} {client : Client μ}

/-- A program of a client writes nothing about the latest activity. -/
theorem adds_client {α : Type} {i : Invocation} {p : Proc μ α}
    (h : ∀ active, Keeps last active p fun _ active' => active' = active) :
    Adds last i p fun _ lines => lines = [] :=
  (adds_keeping fun active => (h active).mono fun _ _ hp => ⟨hp, trivial⟩).mono fun _ _ hl => hl.1

theorem adds_runHandler (hclient : Spares last client) {d : Delivery} (hsound : d.IsSound) :
    Adds last d.invocation (runHandler client t d) fun r lines =>
      ∃ object, lines = [.called d.invocation object, .ended d.invocation r] := by
  obtain ⟨i, route⟩ := d
  obtain ⟨object, hcarries⟩ := hsound
  have hroute : route.follow i.event i.subscription.topic = some (object i.event) := by
    rw [hcarries, if_pos ⟨rfl, rfl⟩]
  have hcall : Adds last i
      (do
        Proc.record t (.called i (object i.event))
        let reaction ← client.handle i.subscription.body (object i.event)
        Proc.record t (.ended i reaction)
        return reaction)
      fun r lines => ∃ object, lines = [.called i object, .ended i r] := by
    refine (adds_record t rfl).bind_eq fun _ => ?_
    refine (adds_client fun active => hclient.handle active _ _).bind_eq fun r => ?_
    refine (adds_record t rfl).bind_eq fun _ => ?_
    exact adds_done ⟨_, rfl⟩
  rw [runHandler, exclusively]
  simp only [hroute]
  by_cases hconcurrent : i.subscription.concurrent
  · simp only [hconcurrent, if_true]
    exact hcall
  · simp only [hconcurrent]
    refine adds_freely_bind (freely (s := .share i.bus i.subscription.id) rfl) fun lock _ => ?_
    refine adds_freely_bind (freely (s := .acquire i.bus lock t) rfl) fun _ _ => ?_
    refine hcall.bind ?_
    rintro r _ ⟨object, rfl⟩
    refine adds_freely_bind (freely (s := .release i.bus lock) rfl) fun _ _ => ?_
    refine adds_freely_bind (freely (s := .unshare i.bus lock) rfl) fun _ _ => ?_
    refine adds_freely_bind (freely (s := .readBus i.bus) rfl) fun bus _ => ?_
    by_cases hpresent : bus.roster.contains i.subscription.id.owner
    · simp only [hpresent, if_true]
      exact adds_done ⟨object, rfl⟩
    · simp only [hpresent]
      refine adds_freely_bind (freely (s := .discard i.bus i.subscription.id) rfl) fun _ _ => ?_
      exact adds_done ⟨object, rfl⟩

theorem adds_tellOne (hclient : Spares last client) (identifier : String) (i : Invocation)
    (failure : Failure) (place : Nat) (observer : Observer) :
    Adds last i (tellOne client t identifier i failure place observer) fun _ lines =>
      lines = [.reported i place observer failure] := by
  refine (adds_record t rfl).bind_eq fun _ => ?_
  cases observer with
  | log => exact adds_done rfl
  | custom label name body =>
    refine (adds_client fun active => hclient.observe active body failure).bind_eq fun payload => ?_
    cases payload with
    | none => exact adds_done rfl
    | some payload =>
      refine (adds_freely freely_log).mono ?_
      rintro _ _ ⟨rfl, -⟩
      rfl

/-- Everyone is told, one after another. -/
theorem adds_tellAll (hclient : Spares last client) (i : Invocation) (cause : Cause) :
    Adds last i (tellAll client t i cause) fun failure lines =>
      failure = last.failure i cause ∧ lines = last.reports i cause := by
  refine adds_freely_bind (freely (s := .readBus i.bus) rfl) ?_
  rintro bus ⟨hsettings, -⟩
  have htell : ∀ (observers : List (Observer × Nat)) failure,
      Adds last i
        (forEach observers fun entry =>
          tellOne client t bus.settings.identifier i failure entry.2 entry.1)
        fun _ lines => lines = observers.map fun entry =>
          .reported i entry.2 entry.1 failure := by
    intro observers failure
    induction observers with
    | nil => exact adds_done rfl
    | cons entry rest ih =>
      refine (adds_tellOne hclient _ i failure entry.2 entry.1).bind_eq fun _ => ?_
      exact ih.mono fun _ _ hl => hl ▸ rfl
  have hobservers : bus.observers = (last.bus i.bus).observers := by
    rw [Bus.observers, hsettings, Bus.observers]
  refine (htell _ _).bind_eq fun _ => adds_done ⟨?_, ?_⟩
  · rw [hsettings]
    rfl
  · rw [hobservers, hsettings, List.append_nil]
    rfl

variable {id : PostId} {matched : List Invocation} {rest : List Activity}

theorem isLocal_told (x : Performance) : IsLocal (last.told x) := by
  intro i hi
  obtain ⟨j, object, r⟩ := x
  rcases List.mem_cons.mp hi with h | hi
  · cases h
  rcases List.mem_cons.mp hi with h | hi
  · cases h
  cases hcause : r.cause? with
  | none => rw [hcause] at hi; cases hi
  | some cause =>
    rw [hcause] at hi
    obtain ⟨_, -, h⟩ := List.mem_map.mp hi
    cases h

/-- What the observers hear of a failure comes after the lines of the call that failed. -/
theorem keeps_tellAll (hclient : Spares last client) {i : Invocation} {object : Object}
    {r : Reaction} {cause : Cause} (hcause : r.cause? = some cause) {lines : List Occurrence}
    (hadmits : Activity.Admits i (.post id matched (lines ++ [.called i object, .ended i r]))) :
    Keeps last (.post id matched (lines ++ [.called i object, .ended i r]) :: rest)
      (tellAll client t i cause) fun failure active =>
        failure = last.failure i cause ∧
          active = .post id matched (lines ++ last.told ⟨i, object, r⟩) :: rest := by
  refine (adds_tellAll hclient i cause _ rest hadmits).mono ?_
  rintro failure _ ⟨_, ⟨hfailure, rfl⟩, -, rfl⟩
  refine ⟨hfailure, ?_⟩
  rw [World.told, hcause, Activity.add, List.append_assoc]
  rfl

theorem keeps_deliverAll (hclient : Spares last client) (policy : ErrorPolicy)
    (failures : List Failure) (ds : List Delivery)
    (hds : ∀ d ∈ ds, d.IsSound ∧ d.invocation.post = id) {lines : List Occurrence}
    (hlocal : IsLocal lines) :
    Keeps last (.post id matched lines :: rest) (deliverAll client t policy failures ds)
      fun outcome active => ∃ ran,
        last.Dispatch policy failures (ds.map Delivery.invocation) ran outcome ∧
          active = .post id matched (lines ++ ran.flatMap last.told) :: rest := by
  induction ds generalizing failures lines with
  | nil =>
    refine keeps_done ⟨[], .finished failures, ?_⟩
    rw [List.flatMap_nil, List.append_nil]
  | cons d ds ih =>
    obtain ⟨⟨hsound, hpost⟩, hrest⟩ := List.forall_mem_cons.mp hds
    have hadmits : Activity.Admits d.invocation (.post id matched lines) := ⟨hpost, .inl hlocal⟩
    refine (adds_runHandler hclient hsound _ rest hadmits).bind ?_
    rintro r _ ⟨_, ⟨object, rfl⟩, hadmits, rfl⟩
    have hon : ∀ x, IsLocal (lines ++ last.told x) := fun x => isLocal_append hlocal (isLocal_told x)
    cases r with
    | fine =>
      refine (ih failures hrest (hon ⟨d.invocation, object, .fine⟩)).mono ?_
      rintro outcome _ ⟨ran, hran, rfl⟩
      exact ⟨_, .fine object hran, by rw [List.flatMap_cons, List.append_assoc]⟩
    | panicked payload =>
      refine (keeps_tellAll hclient rfl hadmits).bind ?_
      rintro _ _ ⟨-, rfl⟩
      refine keeps_done ⟨_, .panicked failures _ _ object payload, ?_⟩
      rw [List.flatMap_singleton]
    | failed error =>
      refine (keeps_tellAll hclient rfl hadmits).bind ?_
      rintro _ _ ⟨rfl, rfl⟩
      cases policy with
      | propagate =>
        refine keeps_done ⟨_, .stopped rfl failures _ _ object error, ?_⟩
        rw [List.flatMap_singleton]
      | collect =>
        refine (ih _ hrest (hon ⟨d.invocation, object, .failed error⟩)).mono ?_
        rintro outcome _ ⟨ran, hran, rfl⟩
        exact ⟨_, .noted rfl object error hran, by rw [List.flatMap_cons, List.append_assoc]⟩

end Handling

section Jobs

variable {t : Thread} {client : Client μ} {active rest : List Activity}

/-- The end of a job is written down. -/
theorem keeps_settled {activity : Activity} {i : Invocation} (hadmits : activity.Admits i) :
    Keeps last (activity :: rest) (Proc.record (μ := μ) t (.settled i)) fun _ active =>
      active = activity.write (.settled i) ++ rest := by
  intro g hg
  refine obeys_ask ?_ fun _ _ => ?_
  · rintro _ ⟨⟩
    exact ⟨activity, congrArg List.head? hg, hadmits⟩
  · change (g.onTop (Activity.write (.settled i))).active = _
    rw [onTop, hg]

theorem keeps_runJob (hclient : Spares last client) {job : Job} (hsound : job.IsSound) :
    Keeps last (job.activities ++ rest) (runJob client t job) fun _ active => active = rest := by
  cases job with
  | work label body =>
    refine keeps_freely_bind (freely (s := .record t (.worked label)) rfl) fun _ _ => ?_
    exact hclient.work rest body
  | delivery d executor =>
    have hadmits : Activity.Admits d.invocation (.job d.invocation) := rfl
    have hsettled : Keeps last (.job d.invocation :: rest)
        (do
          Proc.record (μ := μ) t (.settled d.invocation)
          return (none : Option Payload))
        fun _ active => active = rest := (keeps_settled hadmits).bind_eq fun _ => keeps_done rfl
    have htell : ∀ cause, Keeps last (.job d.invocation :: rest)
        (tellAll client t d.invocation cause) fun _ active => active = .job d.invocation :: rest := by
      intro cause
      refine (adds_tellAll hclient d.invocation cause _ rest hadmits).mono ?_
      rintro _ _ ⟨_, -, -, rfl⟩
      rfl
    refine (adds_runHandler hclient hsound _ rest hadmits).bind ?_
    rintro r _ ⟨_, -, -, rfl⟩
    cases r with
    | fine => exact hsettled
    | failed error => exact (htell _).bind_eq fun _ => hsettled
    | panicked payload => exact (htell _).bind_eq fun _ => hsettled

theorem keeps_dropDelivery (hclient : Spares last client) (d : Delivery) (executor : String)
    {activity : Activity} (hadmits : activity.Admits d.invocation) :
    Keeps last (activity :: rest) (dropJob client t (.delivery d executor)) fun _ active =>
      ∃ lines, (activity.add lines).Admits d.invocation ∧
        active = (activity.add lines).write (.settled d.invocation) ++ rest := by
  have hdropped : Adds last d.invocation (Proc.record (μ := μ) t (.dropped d.invocation executor))
      fun _ lines => lines = [.dropped d.invocation executor] := adds_record t rfl
  refine (hdropped activity rest hadmits).bind ?_
  rintro _ _ ⟨_, -, hadmits, rfl⟩
  refine (adds_tellAll hclient d.invocation _ _ rest hadmits).bind ?_
  rintro _ _ ⟨lines, -, hadmits, rfl⟩
  rw [← Activity.add_append] at hadmits ⊢
  exact (keeps_settled hadmits).mono fun _ _ hactive => ⟨_, hadmits, hactive⟩

theorem keeps_dropJob (hclient : Spares last client) (job : Job) :
    Keeps last (job.activities ++ rest) (dropJob client t job) fun _ active => active = rest := by
  cases job with
  | work label body => exact keeps_done rfl
  | delivery d executor =>
    have hadmits : Activity.Admits d.invocation (.job d.invocation) := rfl
    refine (keeps_dropDelivery hclient d executor hadmits).mono ?_
    rintro _ _ ⟨_, -, rfl⟩
    rfl

theorem keeps_sendToWorkers {job : Job} (e : ExecutorId)
    (hsend : Keeps last active (Proc.send (μ := μ) e job) fun _ active' => active' = active) :
    Keeps last active (sendToWorkers (μ := μ) e job) fun _ active' => active' = active := by
  refine keeps_freely_bind (freely (s := .borrow e) rfl) fun borrowed _ => ?_
  cases borrowed with
  | false => exact keeps_done rfl
  | true =>
    refine hsend.bind_eq fun sent => ?_
    exact keeps_freely_bind (freely (s := .giveBack e) rfl) fun _ _ => keeps_done rfl

/-- Whatever becomes of a job that is handed over, the activities are as before or as after its loss. -/
theorem keeps_submit {job : Job} (e : ExecutorId) {Q : List Activity → Prop} (hactive : Q active)
    (hoffer : Keeps last active (Proc.offer (μ := μ) e job) fun _ active' => active' = active)
    (hsend : Keeps last active (Proc.send (μ := μ) e job) fun _ active' => active' = active)
    (hdrop : Keeps last active (dropJob client t job) fun _ => Q) :
    Keeps last active (submit client t e job) fun _ => Q := by
  refine keeps_freely_bind (freely (s := .readExecutor e) rfl) fun executor _ => ?_
  have hrefuse : ∀ answer : Except BusError Unit,
      Keeps last active (do dropJob client t job; return answer) fun _ => Q :=
    fun answer => hdrop.bind fun _ _ hQ => keeps_done hQ
  cases executor with
  | manual m =>
    refine hoffer.bind_eq fun accepted => ?_
    cases accepted with
    | true => exact keeps_done hactive
    | false => exact hrefuse _
  | pool name p =>
    refine (keeps_sendToWorkers e hsend).bind_eq fun sent => ?_
    match sent with
    | some true => exact keeps_done hactive
    | some false => exact hrefuse _
    | none => exact hrefuse _
  | runtime p =>
    refine (keeps_sendToWorkers e hsend).bind_eq fun sent => ?_
    match sent with
    | some true => exact keeps_done hactive
    | some false => exact hrefuse _
    | none => exact hrefuse _

theorem keeps_submitWork (e : ExecutorId) (label : String) (body : CodeId) :
    Keeps last active (submit client t e (.work label body)) fun _ active' => active' = active := by
  have hoffer : (conduct last).Freely (Proc.offer (μ := μ) e (.work label body)) _ :=
    freely (s := .offer e (.work label body)) rfl
  have hsend : (conduct last).Freely (Proc.send (μ := μ) e (.work label body)) _ :=
    freely (s := .send e (.work label body)) rfl
  exact keeps_submit e rfl ((keeps_freely hoffer).mono fun _ _ hp => hp.1)
    ((keeps_freely hsend).mono fun _ _ hp => hp.1) (keeps_done rfl)

section Post

variable {id : PostId} {matched : List Invocation} {lines : List Occurrence}

theorem keeps_submitDelivery (hclient : Spares last client) (e : ExecutorId) {d : Delivery}
    (executor : String) (hpost : d.invocation.post = id) (hremote : IsRemote lines)
    (hsubmitted : .submitted d.invocation ∈ lines) :
    Keeps last (.post id matched lines :: rest) (submit client t e (.delivery d executor))
      fun _ active => ∃ more, IsRemote (lines ++ more) ∧
        active = .post id matched (lines ++ more) :: rest := by
  have hhands : ∀ g : Activities, g.active = .post id matched lines :: rest →
      g.Hands (.delivery d executor) := fun g hg =>
    ⟨id, matched, lines, congrArg List.head? hg, hsubmitted⟩
  have hadmits : Activity.Admits d.invocation (.post id matched lines) :=
    ⟨hpost, .inr ⟨hremote, hsubmitted⟩⟩
  refine keeps_submit e ⟨[], ?_⟩ (fun g hg => obeys_ask (hhands g hg) fun _ _ => hg)
    (fun g hg => obeys_ask (hhands g hg) fun _ _ => hg)
    ((keeps_dropDelivery hclient d executor hadmits).mono ?_)
  · rw [List.append_nil]
    exact ⟨hremote, rfl⟩
  · rintro _ _ ⟨more, hadmits, rfl⟩
    have hmem := List.mem_append_left more hsubmitted
    have hmore : IsRemote (lines ++ more) := by
      rcases hadmits.2 with hlocal | hremote
      · exact absurd hmem (hlocal _)
      · exact hremote.1
    refine ⟨more ++ [.settled d.invocation], ?_, ?_⟩
    · rw [← List.append_assoc]
      exact hmore.append_singleton rfl (List.mem_append_left _ hmem)
    · rw [← List.append_assoc]
      rfl

/-- A post that hands its deliveries over writes about nothing else. -/
theorem keeps_submitAll (hclient : Spares last client) (e : ExecutorId) (ds : List Delivery)
    (hds : ∀ d ∈ ds, d.invocation.post = id ∧ d.invocation ∈ matched ∧
      (last.bus d.invocation.bus).discipline ≠ .publisher) (hremote : IsRemote lines) :
    Keeps last (.post id matched lines :: rest) (submitAll client t e ds) fun outcome active =>
      (∀ payload, outcome ≠ .panicked payload) ∧
      ∃ more, active = .post id matched (lines ++ more) :: rest ∧
        (if ds = [] then more = [] ∧ outcome = .ok else ∃ i, .submitted i ∈ more) := by
  induction ds generalizing lines with
  | nil =>
    refine keeps_done ⟨fun payload hpanicked => ?_, [], ?_, rfl, rfl⟩
    · cases hpanicked
    · rw [List.append_nil]
  | cons d ds ih =>
    obtain ⟨⟨hpost, hmatched, hdiscipline⟩, hrest⟩ := List.forall_mem_cons.mp hds
    refine keeps_freely_bind (freely (s := .readExecutor e) rfl) fun executor _ => ?_
    have hsubmitted : Keeps last (.post id matched lines :: rest)
        (Proc.record (μ := μ) t (.submitted d.invocation)) fun _ active =>
          active = .post id matched (lines ++ [.submitted d.invocation]) :: rest := by
      intro g hg
      refine obeys_ask ⟨matched, lines, ?_, hmatched, hremote, hdiscipline⟩ fun _ _ => ?_
      · rw [hg, hpost]
        rfl
      · change (g.onTop (Activity.write (.submitted d.invocation))).active = _
        rw [onTop, hg]
        rfl
    refine hsubmitted.bind_eq fun _ => ?_
    have hmem : .submitted d.invocation ∈ lines ++ [.submitted d.invocation] :=
      List.mem_append_right _ (List.mem_singleton_self _)
    refine (keeps_submitDelivery hclient e _ hpost (hremote.append_singleton rfl hmem) hmem).bind ?_
    rintro answer _ ⟨more, hremote, rfl⟩
    rw [List.append_assoc] at hremote ⊢
    have hmore : .submitted d.invocation ∈ [.submitted d.invocation] ++ more := List.mem_cons_self
    cases answer with
    | ok =>
      refine (ih hrest hremote).mono ?_
      rintro outcome _ ⟨hcalm, later, rfl, -⟩
      refine ⟨hcalm, [.submitted d.invocation] ++ more ++ later, by rw [List.append_assoc lines], ?_⟩
      rw [if_neg (List.cons_ne_nil d ds)]
      exact ⟨_, List.mem_append_left _ hmore⟩
    | error error =>
      refine keeps_freely_bind (freely (s := .readBus d.invocation.bus) rfl) fun bus _ => ?_
      refine keeps_freely_bind freely_log fun _ _ => keeps_done ⟨fun payload hpanicked => ?_, _, rfl, ?_⟩
      · cases hpanicked
      · rw [if_neg (List.cons_ne_nil d ds)]
        exact ⟨_, hmore⟩

theorem keeps_answered {outcome : Outcome} (h : last.Answers matched lines outcome) :
    Keeps last (.post id matched lines :: active) (Proc.record (μ := μ) t (.answered id outcome))
      fun _ active' => active' = active := by
  intro g hg
  refine obeys_ask ⟨matched, lines, congrArg List.head? hg, h⟩ fun _ _ => ?_
  change (g.onTop fun _ => []).active = active
  rw [onTop, hg]
  rfl

end Post

end Jobs

section Calls

variable {t : Thread} {active : List Activity}

theorem bus_deliveries {b : BusId} {event : Event} {found : List Selection} {id : PostId} :
    ∀ i ∈ (deliveries id b event found).map Delivery.invocation,
      i.post = id ∧ i.bus = b ∧ i.event = event := by
  intro i hi
  obtain ⟨d, hd, rfl⟩ := List.mem_map.mp hi
  obtain ⟨⟨s, place⟩, -, rfl⟩ := List.mem_map.mp hd
  exact ⟨rfl, rfl, rfl⟩

theorem sound_deliveries {b : BusId} {event : Event} {found : List Selection} (id : PostId)
    (hfound : ∀ s ∈ found, ∃ object, s.route.Carries event.type s.subscription.topic object) :
    ∀ d ∈ deliveries id b event found, d.IsSound := by
  intro d hd
  obtain ⟨⟨s, place⟩, hs, rfl⟩ := List.mem_map.mp hd
  exact hfound s (List.fst_mem_of_mem_zipIdx hs)

/-- A post starts an activity with its handlers. -/
theorem obeys_selected {g : Activities} {id : PostId} (hfresh : id ∈ g.fresh) (b : BusId)
    (event : Event) (found : List Selection) :
    let matched := (deliveries id b event found).map Delivery.invocation
    (conduct last).Obeys g (Proc.record (μ := μ) t (.selected id matched))
      fun g' _ => g'.active = .post id matched [] :: g.active :=
  obeys_ask ⟨hfresh, b, event, found, rfl⟩ fun _ _ => rfl

theorem keeps_post {client : Client μ} (hclient : Spares last client) (b : BusId) (event : Event) :
    Keeps last active (post client t b event) fun _ active' => active' = active := by
  rintro g rfl
  refine Obeys.bind (obeys_ask trivial fun id _ => ?_)
  refine (freely_findHandlers t b event.type).obeys_bind fun found hfound => ?_
  refine Obeys.bind ((obeys_selected List.mem_cons_self b event found).mono fun g' _ hg' => ?_)
  have hsound := sound_deliveries (b := b) id hfound
  have hpost : ∀ d ∈ deliveries id b event found,
      d.invocation.post = id ∧ d.invocation.bus = b ∧ d.invocation.event = event :=
    fun d hd => bus_deliveries _ (List.mem_map_of_mem hd)
  refine (?_ : Keeps last (.post id _ [] :: g.active) _ fun _ active' => active' = g.active) g' hg'
  refine keeps_freely_bind (freely (s := .readBus b) rfl) ?_
  rintro bus ⟨hsettings, hdiscipline, -⟩
  cases hcase : bus.discipline with
  | publisher =>
    refine (keeps_deliverAll hclient bus.settings.policy [] _ (fun d hd => ⟨hsound d hd, (hpost d hd).1⟩)
      fun _ => List.not_mem_nil).bind ?_
    rintro outcome _ ⟨ran, hran, rfl⟩
    rw [hsettings] at hran
    refine (keeps_answered (.of_dispatch hran ?_)).bind_eq fun _ => keeps_done rfl
    exact List.forall_mem_map.mpr fun d hd => (hpost d hd).2.1
  | executor e =>
    have hhanded : ∀ d ∈ deliveries id b event found, d.invocation.post = id ∧
        d.invocation ∈ (deliveries id b event found).map Delivery.invocation ∧
        (last.bus d.invocation.bus).discipline ≠ .publisher := by
      intro d hd
      refine ⟨(hpost d hd).1, List.mem_map_of_mem hd, ?_⟩
      rw [(hpost d hd).2.1, ← hdiscipline, hcase]
      exact nofun
    have hremote : IsRemote [] := fun o ho => absurd ho List.not_mem_nil
    refine (keeps_submitAll hclient e _ hhanded hremote).bind ?_
    rintro outcome _ ⟨hcalm, more, rfl, hmore⟩
    exact (keeps_answered (.of_submitted hcalm hmore)).bind_eq fun _ => keeps_done rfl

/-- A thread takes a job from an executor, if there is one at this place. -/
theorem keeps_pick (e : ExecutorId) (place : Nat) :
    Keeps last active (Proc.pick (μ := μ) e place) fun job active' =>
      active' = job.elim active (fun job => job.activities ++ active) ∧
        ∀ j, job = some j → j.IsSound := by
  rintro g rfl
  refine obeys_ask trivial fun job htrust => ?_
  cases job with
  | none => exact ⟨rfl, nofun⟩
  | some job =>
    refine ⟨rfl, ?_⟩
    rintro _ ⟨⟩
    exact htrust

theorem keeps_runStored {client : Client μ} (hclient : Spares last client) (e : ExecutorId)
    (limit : Nat) :
    Keeps last active (runStored client t e limit) fun _ active' => active' = active := by
  induction limit with
  | zero => exact fun _ _ => trivial
  | succ limit ih =>
    refine (keeps_pick e 0).bind ?_
    rintro job _ ⟨rfl, hjob⟩
    cases job with
    | none => exact keeps_done rfl
    | some job => exact (keeps_runJob hclient (hjob job rfl)).bind_eq fun _ => ih

theorem keeps_expand {α : Type} {meaning : (c : Call μ) → Proc μ c.Reply}
    (h : ∀ c active, Keeps last active (meaning c) fun _ active' => active' = active) (body : Body μ α) :
    Keeps last active (body.expand meaning) fun _ active' => active' = active := fun _ hg =>
  obeys_expand (C := conduct last) (P := fun g => g.active = active) (fun c g hg => h c active g hg)
    body hg

/-- Code of clients spares the activities if every call does. -/
theorem spares_client (β : Behaviour μ) {meaning : (c : Call μ) → Proc μ c.Reply}
    (h : ∀ c active, Keeps last active (meaning c) fun _ active' => active' = active) :
    Spares last (β.client meaning) :=
  ⟨fun _ _ _ => keeps_expand h _, fun _ _ _ => keeps_expand h _, fun _ _ => keeps_expand h _⟩

/-- Whatever a client calls, and however deep its calls nest, it leaves the activities alone. -/
theorem keeps_perform (β : Behaviour μ) (depth : Nat) (t : Thread) (c : Call μ)
    (active : List Activity) :
    Keeps last active (β.perform depth t c) fun _ active' => active' = active := by
  induction depth generalizing t c active with
  | zero => exact fun _ _ => trivial
  | succ depth ih =>
    have hclient : ∀ t, Spares last (β.client (β.perform depth t)) := fun t =>
      spares_client β fun c active => ih t c active
    have hfree : ∀ {α : Type} {p : Proc μ α} {P : α → Prop}, (conduct last).Freely p P →
        Keeps last active p fun _ active' => active' = active :=
      fun h => (keeps_freely h).mono fun _ _ hp => hp.1
    have hreturn : ∀ {α β : Type} {p : Proc μ α} {P : α → Prop} {f : α → β},
        (conduct last).Freely p P →
        Keeps last active (p.bind fun a => .done (f a)) fun _ active' => active' = active :=
      fun h => keeps_freely_bind h fun _ _ => keeps_done rfl
    have hserial : ∀ {α : Type} {before : List Activity} {p : Nat → Proc μ α},
        (∀ n, Keeps last before (p n) fun _ active' => active' = active) →
        Keeps last before (Proc.serial.bind p) fun _ active' => active' = active :=
      fun h g hg => Obeys.bind (obeys_ask trivial fun n _ => h n _ hg)
    cases c with
    | readBus b => exact hreturn (freely (s := .readBus b) rfl)
    | readExecutor e => exact hreturn (freely (s := .readExecutor e) rfl)
    | post b event => exact keeps_post (hclient t) b event
    | startTask body => exact hfree (freely (s := .startTask body) rfl)
    | joinTask task => exact hfree (freely (s := .joinTask task) rfl)
    | rest => exact hfree (freely (s := .rest t) rfl)
    | register b subscriber => exact hfree (freely_register t b subscriber)
    | unregister b owner name => exact hfree (freely_unregister t b owner name)
    | reaches b type => exact hreturn (freely_selection t b type)
    | assignable b type => exact hreturn (freely_tableOf t b type)
    | declare type steps => exact hfree (freely (s := .declare type steps) rfl)
    | openBus settings discipline => exact hfree (freely (s := .openBus settings discipline) rfl)
    | openManual name room rejection => exact hfree (freely_openExecutor rfl)
    | startPool settings => exact hfree (freely_startPool t settings)
    | startRuntime => exact hfree (freely_openExecutor rfl)
    | submit e label body => exact keeps_submitWork e label body
    | shutdown e => exact hfree (freely_shutdown t e)
    | setRoom e room => exact hfree (freely (s := .setRoom e room) rfl)
    | runAt e place =>
      refine (keeps_pick e place).bind ?_
      rintro job _ ⟨rfl, hjob⟩
      cases job with
      | none => exact keeps_done rfl
      | some job =>
        have hrun : ∀ n, Keeps last (job.activities ++ active) (do
            let _ ← runJob (β.client (β.perform depth (.started n))) (.started n) job
            return ()) fun _ active' => active' = active := fun n =>
          (keeps_runJob (hclient _) (hjob job rfl)).bind_eq fun _ => keeps_done rfl
        exact hserial hrun
    | dropAt e place =>
      refine (keeps_pick e place).bind ?_
      rintro job _ ⟨rfl, hjob⟩
      cases job with
      | none => exact keeps_done rfl
      | some job => exact keeps_dropJob (hclient t) job
    | runAll e => exact hserial fun n => keeps_runStored (hclient _) e depth
    | note operation answer => exact hfree (freely (s := .record t (.nested operation answer)) rfl)
    | memory change => exact hfree (freely (s := .memory change) rfl)
    | await condition patience =>
      refine keeps_freely_bind (freely (s := .time) rfl) fun now _ => ?_
      exact hfree (freely (s := .await condition (now + patience)) rfl)

theorem keeps_serve {client : Client μ} (hclient : Spares last client) {e i : Nat} {job : Job}
    (hsound : job.IsSound) :
    Keeps last (job.activities ++ active) (serve client e i job) fun _ active' => active' = active := by
  refine (keeps_runJob hclient hsound).bind_eq fun ended => ?_
  refine keeps_freely_bind (freely (s := .readExecutor e) rfl) fun executor _ => ?_
  have hdone : Keeps last active (return () : Proc μ Unit) fun _ active' => active' = active :=
    keeps_done rfl
  match ended, executor with
  | some payload, .pool threadName _ => exact (keeps_freely freely_log).mono fun _ _ hp => hp.1
  | some _, .manual _ => exact hdone
  | some _, .runtime _ => exact hdone
  | none, _ => exact hdone

end Calls

/-- All threads keep to these rules, whatever code the clients bring. -/
theorem governs {α : Type} (β : Behaviour μ) (depth : Nat) (body : Body μ α) :
    (conduct last).Governs β depth body where
  idle _ := rfl
  main := keeps_expand (keeps_perform β depth .main) body _ rfl
  task n work g hg := keeps_expand (keeps_perform β depth (.started n)) (β.work work) g hg
  worker _ _ job _ hg hsound :=
    keeps_serve (spares_client β fun c active => keeps_perform β depth _ c active) hsound _
      (congrArg (job.activities ++ ·) hg)

end Activities

end PubSub
