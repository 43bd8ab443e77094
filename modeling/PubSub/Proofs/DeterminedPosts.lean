import PubSub.Proofs.Plain

/-!
# Posts whose course is known beforehand

As long as nobody changes the roster of a bus or the declarations of supertypes, a post to the bus has
only one way to go, if its handlers end in a way that their objects determine. Which records it writes
and what it answers can be told beforehand, whatever other threads do with the tables, the locks and the
memory meanwhile.
-/
namespace PubSub

open Program

variable {μ α γ : Type}

def Invocation.unnumbered (i : Invocation) : Invocation := { i with post := 0 }

/-- The delivery as one of another post. -/
def Delivery.numbered (id : PostId) (d : Delivery) : Delivery :=
  { d with invocation := { d.invocation with post := id } }

/-- The occurrence without the number of its post. -/
def Occurrence.unnumbered : Occurrence → Occurrence
  | .selected _ invocations => .selected 0 (invocations.map Invocation.unnumbered)
  | .answered _ outcome => .answered 0 outcome
  | .called i object => .called i.unnumbered object
  | .ended i r => .ended i.unnumbered r
  | .reported i place observer failure => .reported i.unnumbered place observer failure
  | .submitted i => .submitted i.unnumbered
  | .dropped i executor => .dropped i.unnumbered executor
  | .settled i => .settled i.unnumbered
  | o => o

/-- What the occurrence says about a post, if it belongs to one. -/
def Occurrence.line? (o : Occurrence) : Option Occurrence :=
  if o.post?.isSome then some o.unnumbered else none

namespace World

/-- What a thread has written about its posts, the earliest first: what they selected, the calls and the
ends of handlers, the reports of failures and the answers. -/
def written (w : World μ) (t : Thread) : List Occurrence :=
  w.history.reverse.filterMap fun entry => if entry.thread = t then entry.occurrence.line? else none

theorem written_of_history {w w' : World μ} (h : w'.history = w.history) (t : Thread) :
    w'.written t = w.written t := by
  rw [written, written, h]

theorem written_record (w : World μ) (t t' : Thread) (o : Occurrence) :
    (w.record t' o).written t = w.written t ++ if t' = t then o.line?.toList else [] := by
  rw [written, record, List.reverse_cons, List.filterMap_append, written]
  congr 1
  by_cases ht : t' = t
  · simp only [ht, if_true, List.filterMap_cons, List.filterMap_nil]
    cases o.line? <;> rfl
  · simp only [ht, if_false, List.filterMap_cons, List.filterMap_nil]

theorem written_recordAll (w : World μ) (t t' : Thread) {l : List Occurrence}
    (hl : ∀ o ∈ l, o.post? = none) : (w.recordAll t' l).written t = w.written t := by
  unfold recordAll
  induction l generalizing w with
  | nil => rfl
  | cons o l ih =>
    obtain ⟨ho, hl⟩ := List.forall_mem_cons.mp hl
    rw [List.foldl_cons, ih _ hl, written_record, Occurrence.line?, ho]
    split <;> exact List.append_nil _

end World

/-- The call performs no operation on a bus or an executor. -/
def Call.isInert : Call μ → Bool
  | .memory _ | .await _ _ | .note _ _ => true
  | _ => false

/-- Whatever the memory holds, the body comes to such an answer, and it performs no operation on a bus. -/
def Body.EndsIn (Q : α → Prop) : Body μ α → Prop
  | .done a => Q a
  | .never => False
  | .step c next => c.isInert = true ∧ ∀ reply, EndsIn Q (next reply)

/-- What nobody changes while events are posted to a bus. -/
structure Premises where
  bus : BusId
  settings : BusSettings
  roster : Roster
  declarations : Declarations
  /-- The table that the bus has for a type, or will have. -/
  table : EventType → Table

namespace Premises

/-- The bus is as the posts expect it, which deliver on the publisher's thread. -/
structure Describes (F : Premises) (bus : Bus) : Prop where
  settings : bus.settings = F.settings
  discipline : bus.discipline = .publisher
  roster : bus.roster = F.roster
  tables : ∀ type, (bus.tables.get? type).getD (F.declarations.table type) = F.table type

/-- A step that a thread takes for a post, with the lock that it has before and after, and what it writes
about the post. It has one lock at most. -/
inductive Allows (F : Premises) (t : Thread) :
    Step μ → Option LockId → Option LockId → List Occurrence → Prop
  | readBus {held : Option LockId} : Allows F t (.readBus F.bus) held held []
  | record {held : Option LockId} (o : Occurrence) : Allows F t (.record t o) held held o.line?.toList
  | computeTable {held : Option LockId} (type : EventType) :
    Allows F t (.computeTable t F.bus type) held held []
  | keepTable {held : Option LockId} (type : EventType) :
    Allows F t (.keepTable F.bus type (F.table type)) held held []
  | share {held : Option LockId} (handler : HandlerKey) : Allows F t (.share F.bus handler) held held []
  | acquire (lock : LockId) : Allows F t (.acquire F.bus lock t) none (some lock) []
  | release (lock : LockId) : Allows F t (.release F.bus lock) (some lock) none []
  | unshare {held : Option LockId} (lock : LockId) : Allows F t (.unshare F.bus lock) held held []
  | discard {held : Option LockId} (handler : HandlerKey) :
    Allows F t (.discard F.bus handler) held held []
  | serial {held : Option LockId} : Allows F t .serial held held []
  | memory {held : Option LockId} (change : μ → μ) : Allows F t (.memory change) held held []
  | time {held : Option LockId} : Allows F t .time held held []
  | await {held : Option LockId} (condition : μ → Bool) (deadline : Nat) :
    Allows F t (.await condition deadline) held held []

/-- What a thread may rely on when it gets a reply. -/
def Trusts (F : Premises) : (s : Step μ) → s.Reply → Prop
  | .readBus _, bus => F.Describes bus
  | .computeTable _ _ type, table => table = F.declarations.table type
  | .keepTable _ type _, table => table = F.table type
  | _, _ => True

end Premises

/-- Whatever the replies are, the program writes these lines about posts and comes to such an answer. It
has these locks at its start and at its end. -/
inductive Proc.Determines (F : Premises) (t : Thread) (Q : α → Prop) :
    Option LockId → Option LockId → Proc μ α → List Occurrence → Prop
  | done {held : Option LockId} {a : α} (answer : Q a) : Determines F t Q held held (.done a) []
  | step {held held₁ held₂ : Option LockId} {s : Step μ} {next : s.Reply → Proc μ α}
      {lines later : List Occurrence} (allowed : F.Allows t s held held₁ lines)
      (rest : ∀ reply, F.Trusts s reply → Determines F t Q held₁ held₂ (next reply) later) :
      Determines F t Q held held₂ (.step s next) (lines ++ later)

namespace Proc

variable {F : Premises} {t : Thread} {Q : α → Prop} {R : γ → Prop} {held held₁ held₂ : Option LockId}
  {lines more : List Occurrence} {p : Proc μ α} {f : α → Proc μ γ}

theorem Determines.bind (h : p.Determines F t Q held held₁ lines)
    (hf : ∀ a, Q a → (f a).Determines F t R held₁ held₂ more) :
    Proc.Determines F t R held held₂ (p.bind f) (lines ++ more) := by
  induction h with
  | done answer => exact hf _ answer
  | step allowed _ ih =>
    rw [List.append_assoc]
    exact .step allowed fun reply htrust => ih reply htrust hf

theorem Determines.of_done {a : α} (h : Proc.Determines (μ := μ) F t Q held held₁ (.done a) lines) :
    Q a ∧ held = held₁ ∧ lines = [] := by
  cases h with
  | done answer => exact ⟨answer, rfl, rfl⟩

theorem not_determines_never : ¬ Proc.Determines (μ := μ) F t Q held held₁ .never lines := nofun

theorem Determines.exists_step {s : Step μ} {next : s.Reply → Proc μ α}
    (h : Proc.Determines F t Q held held₂ (.step s next) lines) : ∃ held₁ now later,
      F.Allows t s held held₁ now ∧ lines = now ++ later ∧
      ∀ reply, F.Trusts s reply → (next reply).Determines F t Q held₁ held₂ later := by
  cases h with
  | step allowed rest => exact ⟨_, _, _, allowed, rfl, rest⟩

/-- A first part that writes nothing. -/
theorem Determines.silently (h : p.Determines F t Q held held₁ [])
    (hf : ∀ a, Q a → (f a).Determines F t R held₁ held₂ more) :
    Proc.Determines F t R held held₂ (p.bind f) more := h.bind hf

/-- A last part that writes nothing. -/
theorem Determines.finally (h : p.Determines F t Q held held₁ lines)
    (hf : ∀ a, Q a → (f a).Determines F t R held₁ held₂ []) :
    Proc.Determines F t R held held₂ (p.bind f) lines := by
  have hall := h.bind hf
  rwa [List.append_nil] at hall

theorem determines_ask {s : Step μ} (h : F.Allows t s held held₁ lines) :
    Proc.Determines F t (F.Trusts s) held held₁ (ask s) lines := by
  have hall : Proc.Determines F t (F.Trusts s) held held₁ (ask s) (lines ++ []) :=
    .step h fun _ htrust => .done htrust
  rwa [List.append_nil] at hall

theorem determines_record (o : Occurrence) :
    Proc.Determines (μ := μ) F t (fun _ => True) held held (record t o) o.line?.toList :=
  determines_ask (.record o)

theorem determines_log {level : Level} {target message : String} {fields : List (String × String)} :
    Proc.Determines (μ := μ) F t (fun _ => True) held held (log t level target message fields) [] :=
  determines_record (.logged _)

theorem determines_expand {depth : Nat} {β : Behaviour μ} {body : Body μ α} (h : body.EndsIn Q) :
    Proc.Determines F t Q held held (body.expand (β.perform (depth + 1) t)) [] := by
  induction body with
  | done a => exact .done h
  | never => exact h.elim
  | step c next ih =>
    obtain ⟨hinert, hnext⟩ := h
    refine Determines.silently (Q := fun _ => True) ?_ fun reply _ => ih reply (hnext reply)
    cases c with
    | memory change => exact determines_ask (.memory change)
    | note operation answer => exact determines_record (.nested operation answer)
    | await condition patience =>
      exact (determines_ask .time).silently fun now _ =>
        determines_ask (.await condition (now + patience))
    | _ => cases hinert

theorem determines_tableOf (type : EventType) :
    Proc.Determines (μ := μ) F t (· = F.table type) held held (tableOf t F.bus type) [] := by
  refine (determines_ask .readBus).silently fun bus hbus => ?_
  have htable := hbus.tables type
  cases hfound : bus.tables.get? type with
  | some table =>
    rw [hfound] at htable
    exact .done htable
  | none =>
    rw [hfound] at htable
    refine (determines_ask (.computeTable type)).silently fun table hcomputed => ?_
    obtain rfl : table = F.table type := hcomputed.trans htable
    exact determines_ask (.keepTable type)

theorem determines_selection (type : EventType) :
    Proc.Determines (μ := μ) F t (· = F.roster.select (F.table type)) held held
      (selection t F.bus type) [] := by
  refine (determines_tableOf type).silently fun table htable => ?_
  refine (determines_ask .readBus).silently fun bus hbus => .done ?_
  rw [htable, hbus.roster]

theorem determines_findHandlers (type : EventType) :
    Proc.Determines (μ := μ) F t (· = F.roster.select (F.table type)) held held
      (findHandlers t F.bus type) [] := by
  refine (determines_selection type).silently fun found hfound => ?_
  refine (determines_ask .readBus).silently fun bus _ => ?_
  split <;> exact determines_log.silently fun _ _ => .done hfound

/-- A body runs under the lock of its handler as it would run without. -/
theorem Determines.exclusively (s : Subscription)
    (h : ∀ held, p.Determines F t Q held held lines) :
    Proc.Determines F t Q none none (exclusively t F.bus s p) lines := by
  rw [PubSub.exclusively]
  split
  · exact h none
  refine (determines_ask (.share s.id)).silently fun lock _ => ?_
  refine (determines_ask (.acquire lock)).silently fun _ _ => ?_
  refine (h (some lock)).finally fun a ha => ?_
  refine (determines_ask (.release lock)).silently fun _ _ => ?_
  refine (determines_ask (.unshare lock)).silently fun _ _ => ?_
  refine (determines_ask .readBus).silently fun bus _ => ?_
  split
  · exact .done ha
  · exact (determines_ask (.discard s.id)).silently fun _ _ => .done ha

end Proc

theorem deliveries_eq_map (id : PostId) (b : BusId) (event : Event) (found : List Selection) :
    deliveries id b event found = (deliveries 0 b event found).map (Delivery.numbered id) := by
  rw [deliveries, deliveries, List.map_map]
  rfl

/-- How the handler of a delivery ends, if this is how handlers end that get an object. -/
def Delivery.reaction (react : CodeId → Object → Reaction) (d : Delivery) : Reaction :=
  match d.route.follow d.invocation.event d.invocation.subscription.topic with
  | none => .failed (.text (refusal d.invocation.subscription.topic d.invocation.event.type))
  | some object => react d.invocation.subscription.body object

/-- The start and the end of the handler of a delivery. -/
def Delivery.written (react : CodeId → Object → Reaction) (d : Delivery) : List Occurrence :=
  match d.route.follow d.invocation.event d.invocation.subscription.topic with
  | none => []
  | some object => [.called d.invocation.unnumbered object,
    .ended d.invocation.unnumbered (react d.invocation.subscription.body object)]

/-- Everyone is told about a failure. -/
def Premises.told (F : Premises) (i : Invocation) (cause : Cause) : List Occurrence :=
  (Observer.log :: F.settings.observers).zipIdx.map fun (observer, place) =>
    .reported i.unnumbered place observer (i.failure F.settings.identifier cause)

/-- The observer performs no operation on a bus. -/
def Observer.IsInert (β : Behaviour μ) : Observer → Prop
  | .log => True
  | .custom _ _ body => ∀ failure, (β.observe body failure).EndsIn fun _ => True

/-- The handlers on the roster end in a way that their objects determine, and neither they nor the
observers perform operations on a bus. -/
structure Behaviour.Suits (β : Behaviour μ) (react : CodeId → Object → Reaction) (F : Premises) :
    Prop where
  handlers : ∀ topic, ∀ s ∈ F.roster.on topic, ∀ object,
    (β.handle s.body object).EndsIn (· = react s.body object)
  observers : ∀ observer ∈ F.settings.observers, observer.IsInert β

namespace Proc

variable {F : Premises} {t : Thread} {β : Behaviour μ} {depth : Nat}
  {react : CodeId → Object → Reaction}

theorem determines_runHandler {d : Delivery} (hbus : d.invocation.bus = F.bus)
    (hd : ∀ object, (β.handle d.invocation.subscription.body object).EndsIn
      (· = react d.invocation.subscription.body object)) :
    Proc.Determines F t (· = d.reaction react) none none
      (runHandler (β.client (β.perform (depth + 1) t)) t d) (d.written react) := by
  rw [runHandler, hbus, Delivery.reaction, Delivery.written]
  refine Determines.exclusively _ fun held => ?_
  cases d.route.follow d.invocation.event d.invocation.subscription.topic with
  | none => exact .done rfl
  | some object =>
    refine (determines_record (.called d.invocation object)).bind fun _ _ => ?_
    refine (determines_expand (hd object)).silently fun r hr => ?_
    subst hr
    exact (determines_record (.ended d.invocation _)).finally fun _ _ => .done rfl

theorem determines_tellOne {observer : Observer} (hobserver : observer.IsInert β) (identifier : String)
    (i : Invocation) (failure : Failure) (place : Nat) :
    Proc.Determines F t (fun _ => True) none none
      (tellOne (β.client (β.perform (depth + 1) t)) t identifier i failure place observer)
      [.reported i.unnumbered place observer failure] := by
  refine (determines_record (.reported i place observer failure)).finally fun _ _ => ?_
  cases observer with
  | log => exact .done trivial
  | custom label name body =>
    refine (determines_expand (hobserver failure)).silently fun payload _ => ?_
    cases payload with
    | none => exact .done trivial
    | some payload => exact determines_log

theorem determines_forEach {items : List α} {f : α → Proc μ Unit} {line : α → Occurrence}
    (h : ∀ item ∈ items, Proc.Determines F t (fun _ => True) none none (f item) [line item]) :
    Proc.Determines F t (fun _ => True) none none (forEach items f) (items.map line) := by
  induction items with
  | nil => exact .done trivial
  | cons item rest ih =>
    obtain ⟨hitem, hrest⟩ := List.forall_mem_cons.mp h
    exact hitem.bind fun _ _ => ih hrest

theorem determines_tellAll (hobservers : ∀ observer ∈ F.settings.observers, observer.IsInert β)
    {i : Invocation} (hbus : i.bus = F.bus) (cause : Cause) :
    Proc.Determines F t (· = i.failure F.settings.identifier cause) none none
      (tellAll (β.client (β.perform (depth + 1) t)) t i cause) (F.told i cause) := by
  rw [tellAll, hbus]
  refine (determines_ask .readBus).silently fun bus hdescribes => ?_
  rw [Bus.observers, hdescribes.settings]
  refine Determines.finally (determines_forEach fun entry hitem => ?_) fun _ _ => .done rfl
  obtain ⟨observer, place⟩ := entry
  refine determines_tellOne ?_ _ i _ place
  rcases List.mem_cons.mp (List.fst_mem_of_mem_zipIdx hitem) with rfl | hmem
  · trivial
  · exact hobservers observer hmem

/-- All posts make the same deliveries in the same way, whatever their numbers are. -/
theorem exists_determines_deliverAll (depth : Nat)
    (hobservers : ∀ observer ∈ F.settings.observers, observer.IsInert β)
    (policy : ErrorPolicy) (failures : List Failure) {ds : List Delivery}
    (hds : ∀ d ∈ ds, d.invocation.bus = F.bus ∧ ∀ object,
      (β.handle d.invocation.subscription.body object).EndsIn
        (· = react d.invocation.subscription.body object)) :
    ∃ lines outcome, ∀ id t, Proc.Determines F t (· = outcome) none none
      (deliverAll (β.client (β.perform (depth + 1) t)) t policy failures (ds.map (Delivery.numbered id)))
      lines := by
  induction ds generalizing failures with
  | nil => exact ⟨[], _, fun _ _ => .done rfl⟩
  | cons d ds ih =>
    obtain ⟨⟨hbus, hd⟩, hds⟩ := List.forall_mem_cons.mp hds
    have hran : ∀ id t, Proc.Determines F t (· = d.reaction react) none none
        (runHandler (β.client (β.perform (depth + 1) t)) t (d.numbered id)) (d.written react) :=
      fun id t => determines_runHandler (d := d.numbered id) hbus hd
    have htold : ∀ id t cause, Proc.Determines F t (· = d.invocation.failure F.settings.identifier cause)
        none none (tellAll (β.client (β.perform (depth + 1) t)) t (d.numbered id).invocation cause)
        (F.told d.invocation cause) :=
      fun id t => determines_tellAll (i := (d.numbered id).invocation) hobservers hbus
    cases hreaction : d.reaction react with
    | fine =>
      obtain ⟨lines, outcome, hrest⟩ := ih failures hds
      refine ⟨d.written react ++ lines, outcome, fun id t => (hran id t).bind fun r hr => ?_⟩
      obtain rfl : r = .fine := hr.trans hreaction
      exact hrest id t
    | panicked payload =>
      refine ⟨d.written react ++ F.told d.invocation (.panicked payload.message), .panicked payload,
        fun id t => (hran id t).bind fun r hr => ?_⟩
      obtain rfl : r = .panicked payload := hr.trans hreaction
      exact (htold id t _).finally fun _ _ => .done rfl
    | failed error =>
      cases policy with
      | propagate =>
        refine ⟨d.written react ++ F.told d.invocation (.error error),
          .failed (.handlerFailed (d.invocation.failure F.settings.identifier (.error error))),
          fun id t => (hran id t).bind fun r hr => ?_⟩
        obtain rfl : r = .failed error := hr.trans hreaction
        refine (htold id t _).finally fun failure hfailure => ?_
        subst hfailure
        exact .done rfl
      | collect =>
        obtain ⟨lines, outcome, hrest⟩ :=
          ih (failures ++ [d.invocation.failure F.settings.identifier (.error error)]) hds
        refine ⟨d.written react ++ (F.told d.invocation (.error error) ++ lines), outcome,
          fun id t => (hran id t).bind fun r hr => ?_⟩
        obtain rfl : r = .failed error := hr.trans hreaction
        refine (htold id t _).bind fun failure hfailure => ?_
        subst hfailure
        exact hrest id t

/-- What a post writes and answers is known beforehand. -/
theorem exists_determines_post (depth : Nat) (hβ : β.Suits react F) (event : Event) :
    ∃ lines outcome, ∀ t, Proc.Determines F t (· = outcome) none none
      (post (β.client (β.perform (depth + 1) t)) t F.bus event) lines := by
  let ds := deliveries 0 F.bus event (F.roster.select (F.table event.type))
  have hds : ∀ d ∈ ds, d.invocation.bus = F.bus ∧ ∀ object,
      (β.handle d.invocation.subscription.body object).EndsIn
        (· = react d.invocation.subscription.body object) := by
    intro d hd
    obtain ⟨⟨x, place⟩, hx, rfl⟩ := List.mem_map.mp hd
    obtain ⟨entry, -, hx⟩ := List.mem_flatMap.mp (List.fst_mem_of_mem_zipIdx hx)
    obtain ⟨s, hs, rfl⟩ := List.mem_map.mp hx
    exact ⟨rfl, hβ.handlers entry.1 s hs⟩
  have hunnumbered : ∀ id, ((ds.map (Delivery.numbered id)).map Delivery.invocation).map
      Invocation.unnumbered = ds.map Delivery.invocation := by
    intro id
    simp only [ds, deliveries, List.map_map]
    rfl
  obtain ⟨lines, outcome, hdeliver⟩ :=
    exists_determines_deliverAll depth hβ.observers F.settings.policy [] hds
  refine ⟨.selected 0 (ds.map Delivery.invocation) :: (lines ++ [.answered 0 outcome]), outcome,
    fun t => ?_⟩
  refine (determines_ask .serial).silently fun id _ => ?_
  refine (determines_findHandlers event.type).silently fun found hfound => ?_
  subst hfound
  rw [deliveries_eq_map]
  have hselected : Proc.Determines (μ := μ) F t (fun _ => True) none none
      (record t (.selected id ((ds.map (Delivery.numbered id)).map Delivery.invocation)))
      [.selected 0 (ds.map Delivery.invocation)] := by
    rw [← hunnumbered id]
    exact determines_record _
  refine hselected.bind fun _ _ => ?_
  refine (determines_ask .readBus).silently fun bus hbus => ?_
  rw [hbus.discipline, hbus.settings]
  refine (hdeliver id t).bind fun outcome' houtcome => ?_
  subst houtcome
  exact (determines_record (.answered id _)).finally fun _ _ => .done rfl

end Proc

end PubSub
