import PubSub.Proofs.Frames

/-!
# The library keeps to the protocol

One statement for each operation: from which frames it may be performed, and which frames it leaves
behind. Code of clients reaches the library through calls only, so it leaves the frames as it
found them.
-/
namespace PubSub

open Program Conduct

variable {μ : Type} {O : Outlook}

namespace Outlook

theorem freely_tableOf (t : Thread) (b : BusId) (type : EventType) :
    O.protocol.Freely (tableOf (μ := μ) t b type) fun table =>
      table = O.table b type ∧ table.Carries type := by
  refine (freely (s := .readBus b) rfl).bind ?_
  intro bus ⟨_, htables, _⟩
  cases hkept : bus.tables.get? type with
  | some table =>
    exact freely_done (htables type table hkept)
  | none =>
    exact (freely (s := .computeTable t b type) rfl).bind fun _ hcarries => freely_keepTable hcarries

/-- A selection that an event of this type on this bus may come to. -/
structure Reaches (O : Outlook) (b : BusId) (type : EventType) (s : Selection) : Prop where
  enrolled : O.enrolled b s.subscription
  listed : (s.subscription.topic, s.route) ∈ O.table b type
  carries : ∃ object, s.route.Carries type s.subscription.topic object

theorem freely_selection (t : Thread) (b : BusId) (type : EventType) :
    O.protocol.Freely (selection (μ := μ) t b type) fun found => ∀ s ∈ found, O.Reaches b type s := by
  refine (freely_tableOf t b type).bind ?_
  rintro table ⟨rfl, hcarries⟩
  refine (freely (s := .readBus b) rfl).bind ?_
  intro bus ⟨_, _, hroster⟩
  refine freely_done ?_
  intro s hs
  obtain ⟨entry, hentry, hs⟩ := List.mem_flatMap.mp hs
  obtain ⟨subscription, hmem, rfl⟩ := List.mem_map.mp hs
  obtain ⟨topic, route⟩ := entry
  obtain ⟨rfl, henrolled⟩ := hroster _ _ hmem
  exact ⟨henrolled, hentry, hcarries _ hentry⟩

theorem freely_findHandlers (t : Thread) (b : BusId) (type : EventType) :
    O.protocol.Freely (findHandlers (μ := μ) t b type) fun found =>
      ∀ s ∈ found, O.Reaches b type s := by
  refine (freely_selection t b type).bind ?_
  intro found hfound
  refine (freely (s := .readBus b) rfl).bind ?_
  intro bus _
  by_cases hempty : found.isEmpty
  · simp only [hempty, if_true]
    exact freely_log.bind fun _ _ => freely_done hfound
  · simp only [hempty]
    exact freely_log.bind fun _ _ => freely_done hfound

theorem freely_register (t : Thread) (b : BusId) (s : Subscriber) :
    O.protocol.Freely (register (μ := μ) t b s) fun _ => True := by
  refine (freely (s := .record t _) rfl).bind ?_
  intro _ _
  refine (freely (s := .readBus b) rfl).bind ?_
  intro bus _
  cases s.subscribe with
  | error e => exact freely_log.bind fun _ _ => freely_done trivial
  | ok subscriptions =>
    refine (freely (s := .enrol b s.owner subscriptions) rfl).bind ?_
    intro enrolled _
    cases enrolled <;> exact freely_log.bind fun _ _ => freely_done trivial

theorem freely_unregister (t : Thread) (b : BusId) (owner : SubscriberId) (name : String) :
    O.protocol.Freely (unregister (μ := μ) t b owner name) fun _ => True := by
  refine (freely (s := .dismiss b owner) rfl).bind ?_
  intro removed _
  cases removed with
  | none => exact freely_done trivial
  | some removed =>
    refine (freely (s := .prune b) rfl).bind fun _ _ => ?_
    refine (freely (s := .readBus b) rfl).bind fun _ _ => ?_
    exact freely_log.bind fun _ _ => freely_done trivial

theorem freely_shutdown (t : Thread) (e : ExecutorId) :
    O.protocol.Freely (shutdown (μ := μ) t e) fun _ => True := by
  refine (freely (s := .close e) rfl).bind fun _ _ => ?_
  refine (freely (s := .claim e) rfl).bind fun workers _ => ?_
  refine freely_forEach workers ?_
  intro worker _
  by_cases hself : t = .worker e worker
  · simp only [if_pos hself]
    exact freely_done trivial
  · simp only [if_neg hself]
    exact (freely (s := .join e worker) rfl).mono fun _ _ => trivial

theorem freely_openExecutor {x : Executor} (h : x.jobs = []) :
    O.protocol.Freely (Proc.openExecutor (μ := μ) x) fun _ => True :=
  fun _ => obeys_ask ⟨fun _ => rfl, h⟩ fun _ _ => ⟨rfl, trivial⟩

theorem freely_startPool (t : Thread) (settings : PoolSettings) :
    O.protocol.Freely (startPool (μ := μ) t settings) fun _ => True := by
  refine (freely_openExecutor rfl).bind fun _ _ => ?_
  exact freely_log.bind fun _ _ => freely_done trivial

/-- Code of clients that leaves the frames alone. -/
structure Keeps (O : Outlook) (t : Thread) (client : Client μ) : Prop where
  handle : ∀ stack body object, O.Brings t stack (client.handle body object) fun _ st => st = stack
  observe : ∀ stack body failure,
    O.Brings t stack (client.observe body failure) fun _ st => st = stack
  work : ∀ stack body, O.Brings t stack (client.work body) fun _ st => st = stack

/-- Nobody has to be told any more. -/
def Done (O : Outlook) (top : Frame) : Prop := ∀ hand, top.hand? = some hand → O.Complete hand

section Handling

variable {t : Thread} {client : Client μ} {k : Hand → Frame} {i : Invocation} {rest : List Frame}

theorem done_taken (hk : Slot k) (grip : Option (LockId × Option Thread)) :
    O.Done (k ⟨i, .taken, grip⟩) := by
  intro hand hhand
  rw [hk.hand?] at hhand
  cases hhand
  rfl

/-- A handler is called and ends, with the lock in the hand or without a lock. -/
theorem brings_call (hclient : O.Keeps t client) (hk : Slot k) {route : Route}
    (hfit : O.Fits ⟨i, route⟩) {object : Object}
    (hroute : route.follow i.event i.subscription.topic = some object) {top : Frame}
    {grip : Option (LockId × Option Thread)} (hfocus : top.focus = k ⟨i, .taken, grip⟩)
    (hdone : O.Done top) (hcall : Hand.call t i ⟨i, .taken, grip⟩ = some ⟨i, .running t, grip⟩) :
    O.Brings t (top :: rest)
      (do
        Proc.record t (.called i object)
        let reaction ← client.handle i.subscription.body object
        Proc.record t (.ended i reaction)
        return reaction)
      fun r st => st = k ⟨i, .ended r 0, grip⟩ :: rest := by
  have hcalled : O.Brings t (top :: rest) (Proc.record (μ := μ) t (.called i object)) fun _ st =>
      st = k ⟨i, .running t, grip⟩ :: rest := by
    refine brings_top (.record t (.called i object)) (fun _ => [k ⟨i, .running t, grip⟩])
      (fun _ _ _ => rfl) (fun _ => ?_) fun g hg => ⟨?_, route, hfit, hroute⟩
    · exact hfocus ▸ hk.onHand hcall
    · rw [hand?_of_stack hg]
      exact hdone
  refine hcalled.bind_eq fun _ => (hclient.handle _ _ _).bind_eq fun r => ?_
  have hended : O.Brings t (k ⟨i, .running t, grip⟩ :: rest)
      (Proc.record (μ := μ) t (.ended i r)) fun _ st => st = k ⟨i, .ended r 0, grip⟩ :: rest := by
    refine brings_hand (.record t (.ended i r)) hk (fun _ _ _ => rfl) ?_ fun _ _ => trivial
    simp only [Hand.finish, and_self, if_true]
  exact hended.bind_eq fun _ => brings_done rfl

theorem brings_runHandler (hclient : O.Keeps t client) (hk : Slot k) {d : Delivery}
    (hfit : O.Fits d) {top : Frame} (hfocus : top.focus = k ⟨d.invocation, .taken, none⟩)
    (hdone : O.Done top) :
    O.Brings t (top :: rest) (runHandler client t d) fun r st =>
      st = k ⟨d.invocation, .ended r 0, none⟩ :: rest := by
  obtain ⟨i, route⟩ := d
  obtain ⟨object, hcarries⟩ := hfit.carries
  have hroute : route.follow i.event i.subscription.topic = some (object i.event) := by
    rw [hcarries, if_pos ⟨rfl, rfl⟩]
  rw [runHandler, exclusively]
  simp only [hroute]
  by_cases hconcurrent : i.subscription.concurrent
  · simp only [hconcurrent, if_true]
    refine brings_call hclient hk hfit hroute hfocus hdone ?_
    simp only [Hand.call, hconcurrent, and_self, if_true]
  · simp only [hconcurrent]
    have hexclusive : i.subscription.concurrent = false := by simpa using hconcurrent
    have hshare : O.Brings t (top :: rest) (Proc.share (μ := μ) i.bus i.subscription.id)
        fun lock st => st = k ⟨i, .taken, some (lock, none)⟩ :: rest := by
      refine brings_top (.share i.bus i.subscription.id)
        (fun lock => [k ⟨i, .taken, some (lock, none)⟩]) (fun _ _ _ => rfl) (fun lock => ?_)
        fun g hg => ?_
      · refine hfocus ▸ hk.onHand ?_
        simp only [Hand.share, hexclusive, and_self, if_true]
      · rw [Allows, hand?_of_stack hg]
        exact hdone
    refine hshare.bind_eq fun lock => ?_
    have hacquire : O.Brings t (k ⟨i, .taken, some (lock, none)⟩ :: rest)
        (Proc.acquire (μ := μ) i.bus lock t)
        fun _ st => st = k ⟨i, .taken, some (lock, some t)⟩ :: rest := by
      refine brings_hand (.acquire i.bus lock t) hk (fun _ _ ht => if_pos ht) ?_ fun _ _ => trivial
      simp only [Hand.acquire, and_self, if_true]
    refine hacquire.bind_eq fun _ => ?_
    refine (brings_call hclient hk hfit hroute (hk.focus i _) (done_taken hk _) ?_).bind_eq
      fun r => ?_
    · simp only [Hand.call, and_self, if_true]
    have hrelease : O.Brings t (k ⟨i, .ended r 0, some (lock, some t)⟩ :: rest)
        (Proc.release (μ := μ) i.bus lock)
        fun _ st => st = k ⟨i, .ended r 0, some (lock, none)⟩ :: rest := by
      refine brings_hand (.release i.bus lock) hk (fun _ _ _ => rfl) ?_ fun _ _ => trivial
      simp only [Hand.release, and_self, if_true]
    have hunshare : O.Brings t (k ⟨i, .ended r 0, some (lock, none)⟩ :: rest)
        (Proc.unshare (μ := μ) i.bus lock)
        fun _ st => st = k ⟨i, .ended r 0, none⟩ :: rest := by
      refine brings_hand (.unshare i.bus lock) hk (fun _ _ _ => rfl) ?_ fun _ _ => trivial
      simp only [Hand.unshare, and_self, if_true]
    refine hrelease.bind_eq fun _ => hunshare.bind_eq fun _ => ?_
    refine brings_freely_bind (freely (s := .readBus i.bus) rfl) fun bus _ => ?_
    by_cases hpresent : bus.roster.contains i.subscription.id.owner
    · simp only [hpresent, if_true]
      exact brings_done rfl
    · simp only [hpresent]
      exact brings_freely_bind (freely (s := .discard i.bus i.subscription.id) rfl)
        fun _ _ => brings_done rfl

/-- An observer is told why an invocation failed. -/
theorem brings_tellOne (hclient : O.Keeps t client) (hk : Slot k) {phase phase' : Phase}
    {cause : Cause} (hcause : phase.cause? = some cause)
    (hreport : Hand.report i phase.told ⟨i, phase, none⟩ = some ⟨i, phase', none⟩)
    {observer : Observer} (hobserver : (O.observers i.bus)[phase.told]? = some observer) :
    O.Brings t (k ⟨i, phase, none⟩ :: rest)
      (tellOne client t (O.settings i.bus).identifier i
        (i.failure (O.settings i.bus).identifier cause) phase.told observer)
      fun _ st => st = k ⟨i, phase', none⟩ :: rest := by
  have hreported : O.Brings t (k ⟨i, phase, none⟩ :: rest)
      (Proc.record (μ := μ) t (.reported i phase.told observer
        (i.failure (O.settings i.bus).identifier cause)))
      fun _ st => st = k ⟨i, phase', none⟩ :: rest := by
    refine brings_hand (.record t (.reported ..)) hk (fun _ _ _ => rfl) hreport fun g hg => ?_
    refine ⟨⟨i, phase, none⟩, cause, ?_, hcause, hobserver, rfl⟩
    rw [hand?_of_stack hg, hk.hand?]
  refine hreported.bind_eq fun _ => ?_
  cases observer with
  | log => exact brings_done rfl
  | custom label name body =>
    refine (hclient.observe _ body _).bind_eq fun payload => ?_
    cases payload with
    | none => exact brings_done rfl
    | some payload => exact (brings_freely freely_log).mono fun _ _ hst => hst.1

theorem report_withTold (i : Invocation) {phase : Phase} (hcause : phase.cause?.isSome) :
    Hand.report i phase.told ⟨i, phase, none⟩ =
      some ⟨i, phase.withTold (phase.told + 1), none⟩ := by
  cases phase with
  | ended r told => simp only [Hand.report, Phase.told, Phase.withTold, and_self, if_true]
  | lost executor told => simp only [Hand.report, Phase.told, Phase.withTold, and_self, if_true]
  | _ => cases hcause

/-- The observers from some place on are told, one after another. -/
theorem brings_tellFrom (hclient : O.Keeps t client) (hk : Slot k) {cause : Cause}
    (observers : List Observer) {phase : Phase} (hcause : phase.cause? = some cause)
    (hobservers : (O.observers i.bus).drop phase.told = observers) :
    O.Brings t (k ⟨i, phase, none⟩ :: rest)
      (forEach (observers.zipIdx phase.told) fun (observer, place) =>
        tellOne client t (O.settings i.bus).identifier i
          (i.failure (O.settings i.bus).identifier cause) place observer)
      fun _ st => st = k ⟨i, phase.withTold (phase.told + observers.length), none⟩ :: rest := by
  induction observers generalizing phase with
  | nil =>
    refine brings_done ?_
    rw [List.length_nil, Nat.add_zero, Phase.withTold_told]
  | cons observer behind ih =>
    have hobserver : (O.observers i.bus)[phase.told]? = some observer := by
      rw [← List.head?_drop, hobservers]
      rfl
    have hreport := report_withTold i (hcause ▸ rfl : phase.cause?.isSome)
    refine (brings_tellOne hclient hk hcause hreport hobserver).bind_eq fun _ => ?_
    have hnext := @ih (phase.withTold (phase.told + 1))
      (by rw [Phase.cause?_withTold, hcause]) (by
        rw [Phase.told_withTold (hcause ▸ rfl), ← List.drop_drop, hobservers]
        rfl)
    rw [Phase.told_withTold (hcause ▸ rfl), Phase.withTold_withTold] at hnext
    rw [List.length_cons, Nat.add_comm behind.length, ← Nat.add_assoc]
    exact hnext

/-- All observers of the bus are told. -/
theorem brings_tellAll (hclient : O.Keeps t client) (hk : Slot k) {phase : Phase} {cause : Cause}
    (hcause : phase.cause? = some cause) (htold : phase.told = 0) :
    O.Brings t (k ⟨i, phase, none⟩ :: rest) (tellAll client t i cause) fun _ st =>
      st = k ⟨i, phase.withTold (O.observers i.bus).length, none⟩ :: rest := by
  refine brings_freely_bind (freely (s := .readBus i.bus) rfl) ?_
  intro bus ⟨hsettings, _⟩
  have htell : O.Brings t (k ⟨i, phase, none⟩ :: rest) _ _ :=
    brings_tellFrom hclient hk _ hcause rfl
  have hobservers : bus.observers = O.observers i.bus := by
    rw [Bus.observers, hsettings, observers]
  rw [hobservers, hsettings]
  rw [htold, List.drop_zero, Nat.zero_add] at htell
  exact htell.bind_eq fun _ => brings_done rfl

/-- A post that is done with one invocation and has not begun the next. -/
structure Between (O : Outlook) (id : PostId) (todo : List Invocation) (top : Frame) : Prop where
  post : top = .post id none todo ∨ ∃ i r told, top = .post id (some ⟨i, .ended r told, none⟩) todo
  done : O.Done top

theorem Between.focus {id : PostId} {todo : List Invocation} {top : Frame}
    (h : O.Between id (i :: todo) top) : top.focus = .post id (some ⟨i, .taken, none⟩) todo := by
  rcases h.post with rfl | ⟨i', r, told, rfl⟩ <;> rfl

theorem Between.answer {id : PostId} {todo : List Invocation} {top : Frame}
    (h : O.Between id todo top) : top.answer id = some [] := by
  rcases h.post with rfl | ⟨i', r, told, rfl⟩ <;> exact if_pos rfl

theorem between_none {id : PostId} {todo : List Invocation} :
    O.Between id todo (.post id none todo) := by
  refine ⟨.inl rfl, ?_⟩
  rintro hand ⟨⟩

theorem between_ended {id : PostId} {todo : List Invocation} {r : Reaction} {told : Nat}
    (h : O.Complete ⟨i, .ended r told, none⟩) :
    O.Between id todo (.post id (some ⟨i, .ended r told, none⟩) todo) := by
  refine ⟨.inr ⟨i, r, told, rfl⟩, ?_⟩
  rintro hand ⟨⟩
  exact h

theorem complete_told {phase : Phase} (hcause : phase.cause?.isSome)
    (htold : phase.told = (O.observers i.bus).length) : O.Complete ⟨i, phase, none⟩ := by
  rw [Complete, htold, if_pos hcause]

theorem brings_deliverAll (hclient : O.Keeps t client) {id : PostId} (policy : ErrorPolicy)
    (failures : List Failure) (ds : List Delivery) (hfits : ∀ d ∈ ds, O.Fits d) {top : Frame}
    (htop : O.Between id (ds.map Delivery.invocation) top) :
    O.Brings t (top :: rest) (deliverAll client t policy failures ds) fun _ st =>
      ∃ todo top', O.Between id todo top' ∧ st = top' :: rest := by
  induction ds generalizing failures top with
  | nil => exact brings_done ⟨[], top, htop, rfl⟩
  | cons d ds ih =>
    have hslot := Slot.post id (ds.map Delivery.invocation)
    have hrest := fun d hd => hfits d (List.mem_cons_of_mem _ hd)
    refine (brings_runHandler hclient hslot (hfits d List.mem_cons_self) htop.focus
      htop.done).bind_eq fun r => ?_
    cases r with
    | fine => exact ih failures hrest (between_ended rfl)
    | panicked payload =>
      refine (brings_tellAll hclient hslot rfl rfl).bind_eq fun _ => ?_
      exact brings_done ⟨_, _, between_ended (complete_told rfl rfl), rfl⟩
    | failed error =>
      refine (brings_tellAll hclient hslot rfl rfl).bind_eq fun failure => ?_
      cases policy with
      | propagate => exact brings_done ⟨_, _, between_ended (complete_told rfl rfl), rfl⟩
      | collect => exact ih _ hrest (between_ended (complete_told rfl rfl))

end Handling

section Jobs

variable {t : Thread} {client : Client μ} {rest : List Frame}

/-- The end of a job is written down. -/
theorem brings_settled {top : Frame} {i : Invocation} {frames : List Frame}
    (hsettle : top.settle i = some frames) {hand : Hand} (hhand : top.hand? = some hand)
    (hcomplete : O.Complete hand) :
    O.Brings t (top :: rest) (Proc.record (μ := μ) t (.settled i)) fun _ st =>
      st = frames ++ rest := by
  refine brings_top (.record t (.settled i)) (fun _ => frames) (fun _ _ _ => rfl)
    (fun _ => hsettle) fun g hg => ⟨hand, ?_, hcomplete⟩
  rw [hand?_of_stack hg]
  exact hhand

theorem brings_runJob (hclient : O.Keeps t client) {job : Job} (hjob : O.TrustsJob job) :
    O.Brings t (job.frames ++ rest) (runJob client t job) fun _ st => st = rest := by
  cases job with
  | work label body =>
    refine brings_freely_bind (freely (s := .record t (.worked label)) rfl) fun _ _ => ?_
    exact hclient.work rest body
  | delivery d executor =>
    have hended : ∀ r told, O.Complete ⟨d.invocation, .ended r told, none⟩ →
        O.Brings t (.job ⟨d.invocation, .ended r told, none⟩ :: rest)
          (do
            Proc.record (μ := μ) t (.settled d.invocation)
            return (none : Option Payload))
          fun _ st => st = rest := by
      intro r told hcomplete
      have hsettle : (Frame.job ⟨d.invocation, .ended r told, none⟩).settle d.invocation = some [] :=
        if_pos rfl
      exact (brings_settled hsettle rfl hcomplete).bind_eq fun _ => brings_done rfl
    refine (brings_runHandler hclient .job hjob rfl (done_taken .job none)).bind_eq fun r => ?_
    cases r with
    | fine => exact hended _ _ rfl
    | failed error =>
      refine (brings_tellAll hclient .job rfl rfl).bind_eq fun _ => ?_
      exact hended _ _ (complete_told rfl rfl)
    | panicked payload =>
      refine (brings_tellAll hclient .job rfl rfl).bind_eq fun _ => ?_
      exact hended _ _ (complete_told rfl rfl)

/-- The loss of a delivery is reported to everyone. -/
theorem brings_dropDelivery (hclient : O.Keeps t client) {d : Delivery} {executor : String}
    {k : Hand → Frame} (hk : Slot k) {phase : Phase}
    (hdrop : (k ⟨d.invocation, phase, none⟩).drop d.invocation executor =
      some [k ⟨d.invocation, .lost executor 0, none⟩]) {frames : List Frame}
    (hsettle : ∀ told, (k ⟨d.invocation, .lost executor told, none⟩).settle d.invocation =
      some frames) :
    O.Brings t (k ⟨d.invocation, phase, none⟩ :: rest) (dropJob client t (.delivery d executor))
      fun _ st => st = frames ++ rest := by
  have hdropped : O.Brings t (k ⟨d.invocation, phase, none⟩ :: rest)
      (Proc.record (μ := μ) t (.dropped d.invocation executor)) fun _ st =>
        st = k ⟨d.invocation, .lost executor 0, none⟩ :: rest :=
    brings_top (.record t (.dropped ..)) (fun _ => [_]) (fun _ _ _ => rfl) (fun _ => hdrop)
      fun _ _ => trivial
  refine hdropped.bind_eq fun _ => (brings_tellAll hclient hk rfl rfl).bind_eq fun _ => ?_
  exact brings_settled (hsettle _) (hk.hand? _) (complete_told rfl rfl)

theorem brings_dropJob (hclient : O.Keeps t client) (job : Job) :
    O.Brings t (job.frames ++ rest) (dropJob client t job) fun _ st => st = rest := by
  cases job with
  | work label body => exact brings_done rfl
  | delivery d executor =>
    have hdrop : (Frame.job ⟨d.invocation, .taken, none⟩).drop d.invocation executor = some [_] :=
      if_pos rfl
    have hsettle : ∀ told, (Frame.job ⟨d.invocation, .lost executor told, none⟩).settle d.invocation =
        some [] := fun _ => if_pos rfl
    exact brings_dropDelivery hclient .job hdrop hsettle

/-- The frames from which a job is handed to an executor, and those after the executor has it. -/
inductive Handover (rest : List Frame) : Job → List Frame → List Frame → Prop where
  | delivery (d : Delivery) (executor : String) (id : PostId) (todo : List Invocation) :
      Handover rest (.delivery d executor)
        (.post id (some ⟨d.invocation, .offered, none⟩) todo :: rest) (.post id none todo :: rest)
  | work (label : String) (body : CodeId) : Handover rest (.work label body) rest rest

variable {job : Job} {before behind : List Frame}

/-- A step that hands over one job and answers whether the executor has it. -/
theorem brings_handed {hand : Job → Proc μ Bool} (h : Handover rest job before behind)
    (hjob : O.TrustsJob job)
    (hwork : ∀ label body, O.protocol.Freely (hand (.work label body)) fun _ => True)
    (hdelivery : ∀ d executor id todo, O.Fits d →
      O.Brings t (.post id (some ⟨d.invocation, .offered, none⟩) todo :: rest)
        (hand (.delivery d executor)) fun accepted st =>
          st = .post id (if accepted then none else some ⟨d.invocation, .offered, none⟩) todo :: rest) :
    O.Brings t before (hand job) fun accepted st => st = if accepted then behind else before := by
  cases h with
  | work label body =>
    refine (brings_freely (hwork label body)).mono ?_
    intro accepted st hst
    cases accepted <;> exact hst.1
  | delivery d executor id todo =>
    refine (hdelivery d executor id todo hjob).mono ?_
    intro accepted st hst
    cases accepted <;> exact hst

theorem brings_offer (h : Handover rest job before behind) (hjob : O.TrustsJob job)
    (e : ExecutorId) :
    O.Brings t before (Proc.offer (μ := μ) e job) fun accepted st =>
      st = if accepted then behind else before := by
  refine brings_handed h hjob (fun label body => freely (s := .offer e (.work label body)) rfl) ?_
  intro d executor id todo hfits
  exact brings_top (.offer e (.delivery d executor)) (fun _ => [_]) (fun _ _ _ => rfl)
    (fun _ => if_pos rfl) fun _ _ => hfits

theorem brings_send (h : Handover rest job before behind) (hjob : O.TrustsJob job)
    (e : ExecutorId) :
    O.Brings t before (Proc.send (μ := μ) e job) fun accepted st =>
      st = if accepted then behind else before := by
  refine brings_handed h hjob (fun label body => freely (s := .send e (.work label body)) rfl) ?_
  intro d executor id todo hfits
  exact brings_top (.send e (.delivery d executor)) (fun _ => [_]) (fun _ _ _ => rfl)
    (fun _ => if_pos rfl) fun _ _ => hfits

theorem brings_sendToWorkers (h : Handover rest job before behind) (hjob : O.TrustsJob job)
    (e : ExecutorId) :
    O.Brings t before (sendToWorkers (μ := μ) e job) fun sent st =>
      st = if sent = some true then behind else before := by
  refine brings_freely_bind (freely (s := .borrow e) rfl) fun borrowed _ => ?_
  cases borrowed with
  | false => exact brings_done rfl
  | true =>
    refine (brings_send h hjob e).bind_eq fun sent => ?_
    refine brings_freely_bind (freely (s := .giveBack e) rfl) fun _ _ => brings_done ?_
    cases sent <;> rfl

/-- A job that was not accepted is dropped. -/
theorem brings_refuse (hclient : O.Keeps t client) (h : Handover rest job before behind) :
    O.Brings t before (dropJob client t job) fun _ st => st = behind := by
  cases h with
  | work label body => exact brings_done rfl
  | delivery d executor id todo =>
    have hdrop : (Frame.post id (some ⟨d.invocation, .offered, none⟩) todo).drop d.invocation
        executor = some [_] := if_pos rfl
    have hsettle : ∀ told, (Frame.post id (some ⟨d.invocation, .lost executor told, none⟩) todo).settle
        d.invocation = some [.post id none todo] := fun _ => if_pos rfl
    exact brings_dropDelivery hclient (.post id todo) hdrop hsettle

theorem brings_submit (hclient : O.Keeps t client) (h : Handover rest job before behind)
    (hjob : O.TrustsJob job) (e : ExecutorId) :
    O.Brings t before (submit client t e job) fun _ st => st = behind := by
  refine brings_freely_bind (freely (s := .readExecutor e) rfl) fun executor _ => ?_
  have hrefuse : ∀ answer : Except BusError Unit, O.Brings t before
      (do dropJob client t job; return answer) fun _ st => st = behind :=
    fun answer => (brings_refuse hclient h).bind_eq fun _ => brings_done rfl
  cases executor with
  | manual m =>
    refine (brings_offer h hjob e).bind_eq fun accepted => ?_
    cases accepted with
    | true => exact brings_done rfl
    | false => exact hrefuse _
  | pool name p =>
    refine (brings_sendToWorkers h hjob e).bind_eq fun sent => ?_
    match sent with
    | some true => exact brings_done rfl
    | some false => exact hrefuse _
    | none => exact hrefuse _
  | runtime p =>
    refine (brings_sendToWorkers h hjob e).bind_eq fun sent => ?_
    match sent with
    | some true => exact brings_done rfl
    | some false => exact hrefuse _
    | none => exact hrefuse _

theorem brings_submitAll (hclient : O.Keeps t client) (e : ExecutorId) {id : PostId}
    (ds : List Delivery) (hfits : ∀ d ∈ ds, O.Fits d) :
    O.Brings t (.post id none (ds.map Delivery.invocation) :: rest) (submitAll client t e ds)
      fun _ st => ∃ todo, st = .post id none todo :: rest := by
  induction ds with
  | nil => exact brings_done ⟨_, rfl⟩
  | cons d ds ih =>
    refine brings_freely_bind (freely (s := .readExecutor e) rfl) fun executor _ => ?_
    have hsubmitted : O.Brings t (.post id none ((d :: ds).map Delivery.invocation) :: rest)
        (Proc.record (μ := μ) t (.submitted d.invocation)) fun _ st =>
          st = .post id (some ⟨d.invocation, .offered, none⟩) (ds.map Delivery.invocation) :: rest :=
      brings_top (.record t (.submitted d.invocation)) (fun _ => [_]) (fun _ _ _ => rfl)
        (fun _ => if_pos rfl) fun _ _ => trivial
    refine hsubmitted.bind_eq fun _ => ?_
    have hhandover : Handover rest _ _ _ :=
      .delivery d executor.view.name id (ds.map Delivery.invocation)
    refine (brings_submit hclient hhandover (hfits d List.mem_cons_self) e).bind_eq fun answer => ?_
    cases answer with
    | ok => exact ih fun d hd => hfits d (List.mem_cons_of_mem _ hd)
    | error error =>
      refine brings_freely_bind (freely (s := .readBus d.invocation.bus) rfl) fun bus _ => ?_
      exact brings_freely_bind freely_log fun _ _ => brings_done ⟨_, rfl⟩

end Jobs

section Calls

variable {t : Thread} {stack : List Frame}

theorem fits_deliveries {b : BusId} {event : Event} {found : List Selection}
    (hfound : ∀ s ∈ found, O.Reaches b event.type s) (id : PostId) :
    ∀ d ∈ deliveries id b event found, O.Fits d := by
  intro d hd
  obtain ⟨⟨s, place⟩, hs, rfl⟩ := List.mem_map.mp hd
  have hreach := hfound s (List.fst_mem_of_mem_zipIdx hs)
  exact ⟨hreach.enrolled, hreach.listed, hreach.carries⟩

theorem post_deliveries {b : BusId} {event : Event} {found : List Selection} {id : PostId} :
    ∀ i ∈ (deliveries id b event found).map Delivery.invocation, i.post = id := by
  intro i hi
  obtain ⟨d, hd, rfl⟩ := List.mem_map.mp hi
  obtain ⟨⟨s, place⟩, -, rfl⟩ := List.mem_map.mp hd
  rfl

/-- The deliveries of a post differ in their places. -/
theorem nodup_deliveries {b : BusId} {event : Event} {found : List Selection} {id : PostId} :
    ((deliveries id b event found).map Delivery.invocation).Nodup := by
  have hplaces : (((deliveries id b event found).map Delivery.invocation).map
      Invocation.place).Nodup := by
    have heq : ((deliveries id b event found).map Delivery.invocation).map Invocation.place =
        found.zipIdx.map Prod.snd := by
      simp only [deliveries, List.map_map]
      rfl
    rw [heq, List.zipIdx_map_snd]
    exact List.nodup_range'
  exact hplaces.of_map _

theorem brings_answered {id : PostId} {todo : List Invocation} {top : Frame}
    (h : O.Between id todo top) (outcome : Outcome) :
    O.Brings t (top :: stack) (Proc.record (μ := μ) t (.answered id outcome))
      fun _ st => st = stack := by
  refine brings_top (.record t (.answered id outcome)) (fun _ => []) (fun _ _ _ => rfl)
    (fun _ => h.answer) fun g hg => ?_
  rw [Allows, Vouches, hand?_of_stack hg]
  exact h.done

/-- A post begins: its serial is used up, and its invocations are all still to come. -/
theorem obeys_selected {g : Standing} {id : PostId} {ds : List Delivery} (hfresh : id ∈ g.fresh)
    (hnodup : (ds.map Delivery.invocation).Nodup)
    (hpost : ∀ i ∈ ds.map Delivery.invocation, i.post = id) (hfits : ∀ d ∈ ds, O.Fits d) :
    O.protocol.Obeys g (Proc.record (μ := μ) t (.selected id (ds.map Delivery.invocation)))
      fun g' _ => g'.names = g.names ∧
        g'.stack = .post id none (ds.map Delivery.invocation) :: g.stack := by
  have hstep : g.write? t (.selected id (ds.map Delivery.invocation)) = some { g with
      fresh := g.fresh.erase id
      stack := .post id none (ds.map Delivery.invocation) :: g.stack } :=
    if_pos ⟨hfresh, hnodup, hpost⟩
  refine obeys_ask ⟨fun _ => congrArg Option.isSome hstep, ?_⟩ fun _ _ => ?_
  · intro i hi
    obtain ⟨d, hd, rfl⟩ := List.mem_map.mp hi
    exact ⟨d.route, hfits d hd⟩
  · have hafter : O.protocol.after g (.record (μ := μ) t (.selected id
        (ds.map Delivery.invocation))) () = _ := congrArg (Option.getD · g) hstep
    rw [hafter]
    exact ⟨rfl, rfl⟩

theorem brings_post {client : Client μ} (hclient : O.Keeps t client) (b : BusId) (event : Event) :
    O.Brings t stack (post client t b event) fun _ st => st = stack := by
  intro g ht hg
  refine Obeys.bind (obeys_ask ⟨fun _ => rfl, trivial⟩ fun id _ => ?_)
  refine (freely_findHandlers t b event.type).obeys_bind fun found hfound => ?_
  have hfits := fits_deliveries hfound id
  refine Obeys.bind ((obeys_selected List.mem_cons_self nodup_deliveries post_deliveries
    hfits).mono ?_)
  rintro g' _ ⟨hnames, hstack⟩
  have ht' : t ∈ g'.names := by
    rw [hnames]
    exact List.mem_cons_of_mem _ ht
  refine (?_ : O.Brings t (.post id none _ :: stack) _ fun _ st => st = stack) g' ht'
    (hstack.trans (congrArg _ hg))
  refine brings_freely_bind (freely (s := .readBus b) rfl) fun bus _ => ?_
  cases bus.discipline with
  | publisher =>
    refine (brings_deliverAll hclient _ [] _ hfits between_none).bind ?_
    rintro outcome _ ⟨todo, top, hbetween, rfl⟩
    exact (brings_answered hbetween outcome).bind_eq fun _ => brings_done rfl
  | executor e =>
    refine (brings_submitAll hclient e _ hfits).bind ?_
    rintro outcome _ ⟨todo, rfl⟩
    exact (brings_answered between_none outcome).bind_eq fun _ => brings_done rfl

/-- Whatever a program on another thread does, this thread keeps its name. -/
theorem brings_elsewhere {α : Type} {t' : Thread} {p : Proc μ α} {Q : α → List Frame → Prop}
    (h : O.Brings t' stack p Q) {g : Standing} (ht' : t' ∈ g.names) (ht : t ∈ g.names)
    (hg : g.stack = stack) : O.protocol.Obeys g p fun g a => t ∈ g.names ∧ Q a g.stack :=
  ((h g ht' hg).keeping (fun _ _ _ => mem_names_after) ht).mono fun _ _ hQ => ⟨hQ.1, hQ.2.2⟩

/-- A program that runs on a new thread, for which this thread waits. -/
theorem brings_newThread {α : Type} {p : Nat → Proc μ α} {Q : α → List Frame → Prop}
    (h : ∀ n, O.Brings (.started n) stack (p n) Q) :
    O.Brings t stack (Proc.serial.bind p) Q := by
  intro g ht hg
  refine Obeys.bind (obeys_ask ⟨fun _ => rfl, trivial⟩ fun n _ => ?_)
  exact brings_elsewhere (h n) List.mem_cons_self (List.mem_cons_of_mem _ ht) hg

/-- A thread takes a job from an executor, if there is one at this place. -/
theorem brings_pick (e : ExecutorId) (place : Nat) :
    O.Brings t stack (Proc.pick (μ := μ) e place) fun job st =>
      st = job.elim stack (fun job => job.frames ++ stack) ∧ ∀ j, job = some j → O.TrustsJob j := by
  rintro g ht rfl
  refine obeys_ask ⟨fun job => by cases job <;> rfl, trivial⟩ fun job htrust => ?_
  cases job with
  | none => exact ⟨ht, rfl, nofun⟩
  | some job =>
    refine ⟨ht, rfl, ?_⟩
    rintro _ ⟨⟩
    cases job with
    | delivery d executor => exact htrust
    | work label body => trivial

theorem brings_runStored {client : Client μ} (hclient : O.Keeps t client) (e : ExecutorId)
    (limit : Nat) : O.Brings t stack (runStored client t e limit) fun _ st => st = stack := by
  induction limit with
  | zero => exact fun _ _ _ => trivial
  | succ limit ih =>
    refine (brings_pick e 0).bind ?_
    rintro job _ ⟨rfl, hjob⟩
    cases job with
    | none => exact brings_done rfl
    | some job => exact (brings_runJob hclient (hjob job rfl)).bind_eq fun _ => ih

/-- Code of clients keeps the frames if every call does. -/
theorem keeps_client (β : Behaviour μ) {meaning : (c : Call μ) → Proc μ c.Reply}
    (h : ∀ c stack, O.Brings t stack (meaning c) fun _ st => st = stack) :
    O.Keeps t (β.client meaning) := by
  have hexpand : ∀ {α : Type} (stack : List Frame) (body : Body μ α),
      O.Brings t stack (body.expand meaning) fun _ st => st = stack := by
    intro α stack body g ht hg
    have hcall : ∀ c (g : Standing), (t ∈ g.names ∧ g.stack = stack) →
        O.protocol.Obeys g (meaning c) fun g _ => t ∈ g.names ∧ g.stack = stack :=
      fun c g hg => h c stack g hg.1 hg.2
    exact obeys_expand hcall body ⟨ht, hg⟩
  exact ⟨fun stack _ _ => hexpand stack _, fun stack _ _ => hexpand stack _,
    fun stack _ => hexpand stack _⟩

/-- Whatever a client calls, and however deep its calls nest, it leaves the frames alone. -/
theorem brings_perform (β : Behaviour μ) (depth : Nat) (t : Thread) (c : Call μ)
    (stack : List Frame) : O.Brings t stack (β.perform depth t c) fun _ st => st = stack := by
  induction depth generalizing t c stack with
  | zero => exact fun _ _ _ => trivial
  | succ depth ih =>
    have hclient : ∀ t, O.Keeps t (β.client (β.perform depth t)) := fun t =>
      keeps_client β fun c stack => ih t c stack
    have hfree : ∀ {α : Type} {p : Proc μ α} {P : α → Prop}, O.protocol.Freely p P →
        O.Brings t stack p fun _ st => st = stack :=
      fun h => (brings_freely h).mono fun _ _ hst => hst.1
    have hreturn : ∀ {α β : Type} {p : Proc μ α} {P : α → Prop} {f : α → β},
        O.protocol.Freely p P → O.Brings t stack (p.bind fun a => .done (f a)) fun _ st => st = stack :=
      fun h => brings_freely_bind h fun _ _ => brings_done rfl
    cases c with
    | readBus b => exact hreturn (freely (s := .readBus b) rfl)
    | readExecutor e => exact hreturn (freely (s := .readExecutor e) rfl)
    | post b event => exact brings_post (hclient t) b event
    | startTask body => exact hfree (freely (s := .startTask body) rfl)
    | joinTask task => exact hfree (freely (s := .joinTask task) rfl)
    | rest => exact hfree (freely (s := .rest t) rfl)
    | register b subscriber => exact hfree (freely_register t b subscriber)
    | unregister b owner name => exact hfree (freely_unregister t b owner name)
    | reaches b type => exact hreturn (freely_selection t b type)
    | assignable b type => exact hreturn (freely_tableOf t b type)
    | declare type steps => exact hfree (freely (s := .declare type steps) rfl)
    | openBus settings discipline => exact hfree (freely (s := .openBus settings discipline) rfl)
    | openManual name room rejection => exact hfree (freely_openExecutor rfl)
    | startPool settings => exact hfree (freely_startPool t settings)
    | startRuntime => exact hfree (freely_openExecutor rfl)
    | submit e label body => exact brings_submit (hclient t) (.work label body) trivial e
    | shutdown e => exact hfree (freely_shutdown t e)
    | setRoom e room => exact hfree (freely (s := .setRoom e room) rfl)
    | runAt e place =>
      refine (brings_pick e place).bind ?_
      rintro job _ ⟨rfl, hjob⟩
      cases job with
      | none => exact brings_done rfl
      | some job =>
        refine brings_newThread fun n => ?_
        exact (brings_runJob (hclient _) (hjob job rfl)).bind_eq fun _ => brings_done rfl
    | dropAt e place =>
      refine (brings_pick e place).bind ?_
      rintro job _ ⟨rfl, hjob⟩
      cases job with
      | none => exact brings_done rfl
      | some job => exact brings_dropJob (hclient t) job
    | runAll e => exact brings_newThread fun n => brings_runStored (hclient _) e depth
    | note operation answer => exact hfree (freely (s := .record t (.nested operation answer)) rfl)
    | memory change => exact hfree (freely (s := .memory change) rfl)
    | await condition patience =>
      refine brings_freely_bind (freely (s := .time) rfl) fun now _ => ?_
      exact hfree (freely (s := .await condition (now + patience)) rfl)

theorem brings_serve {client : Client μ} {e i : Nat} (hclient : O.Keeps (.worker e i) client)
    {job : Job} (hjob : O.TrustsJob job) :
    O.Brings (.worker e i) (job.frames ++ stack) (serve client e i job) fun _ st => st = stack := by
  refine (brings_runJob hclient hjob).bind_eq fun ended => ?_
  refine brings_freely_bind (freely (s := .readExecutor e) rfl) fun executor _ => ?_
  have hdone : O.Brings (.worker e i) stack (return () : Proc μ Unit) fun _ st => st = stack :=
    brings_done rfl
  match ended, executor with
  | some payload, .pool threadName _ => exact (brings_freely freely_log).mono fun _ _ hst => hst.1
  | some _, .manual _ => exact hdone
  | some _, .runtime _ => exact hdone
  | none, _ => exact hdone

end Calls

/-- All threads keep to the protocol, whatever code the clients bring. -/
theorem governs {α : Type} (β : Behaviour μ) (depth : Nat) (body : Body μ α) :
    O.protocol.Governs β depth body := by
  have hrun : ∀ {α : Type} t (body : Body μ α),
      O.Brings t [] (β.run depth t body) fun _ st => st = [] := by
    intro α t body g ht hg
    have hcall : ∀ c (g : Standing), (t ∈ g.names ∧ g.stack = []) →
        O.protocol.Obeys g (β.perform depth t c) fun g _ => t ∈ g.names ∧ g.stack = [] :=
      fun c g hg => brings_perform β depth t c [] g hg.1 hg.2
    exact obeys_expand hcall body ⟨ht, hg⟩
  constructor
  · exact fun t => ⟨stack_base t, fun _ h => h⟩
  · refine (hrun .main body _ List.mem_cons_self rfl).mono ?_
    rintro g _ ⟨hmain, hstack⟩
    refine ⟨hstack, ?_⟩
    intro name hname
    rwa [List.mem_singleton.mp hname]
  · rintro n work g ⟨hstack, -⟩
    refine (hrun (.started n) (β.work work) { g with names := .started n :: g.names }
      List.mem_cons_self hstack).mono ?_
    rintro g _ ⟨-, hstack⟩
    exact ⟨hstack, nofun⟩
  · rintro e i job g ⟨hstack, hnames⟩ hjob
    have hserve : O.Brings (.worker e i) (job.frames ++ []) _ _ :=
      brings_serve (keeps_client β fun c stack => brings_perform β depth _ c stack) hjob
    have hname := hnames _ List.mem_cons_self
    refine (hserve { g with stack := job.frames ++ g.stack } hname (hstack ▸ rfl)).mono ?_
    rintro g _ ⟨hworker, hstack⟩
    refine ⟨hstack, ?_⟩
    intro name hname
    rwa [List.mem_singleton.mp hname]

end Outlook

end PubSub
