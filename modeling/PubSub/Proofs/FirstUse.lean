import PubSub.Proofs.DeclarationRuns
import PubSub.Proofs.Views

/-!
# The first use of a table

A bus computes the table of an event type when the type is first used on it, and goes by this table
from then on, whatever is declared later. A thread computes a table only when it has just seen the bus
without one. Of several threads that do so at the same time one is the first to keep its table, and the
others get that one.
-/
namespace PubSub

open Program Conduct

variable {μ α γ : Type}

/-- What a thread does to look up a table: it finds it on the bus, or it computes one and gets the one
that the bus keeps. -/
inductive Lookup (name : Thread) (b : BusId) (type : EventType) (table : Table) :
    List (Deed μ) → Prop where
  | found {bus : Bus} (kept : bus.tables.get? type = some table) :
      Lookup name b type table [.step (.readBus b) bus]
  | computed {bus : Bus} {computed : Table} (fresh : bus.tables.get? type = none) :
      Lookup name b type table [.step (.readBus b) bus, .step (.computeTable name b type) computed,
        .step (.keepTable b type computed) table]

/-- What a thread does to find the handlers for a post: it looks up the table and looks at the roster, and
writes down what the post has selected. -/
inductive FindsHandlers (name : Thread) (b : BusId) (event : Event) (table : Table) (id : PostId)
    (ds : List Delivery) (seen : Bus) : List (Deed μ) → Prop where
  | selected {first : List (Deed μ)} (bus again : Bus) (note : LogRecord)
      (lookup : Lookup name b event.type table first)
      (view : ds = deliveries id b event (bus.roster.select table)) :
      FindsHandlers name b event table id ds seen (.step .serial id :: (first ++
        [.step (.readBus b) bus, .step (.readBus b) again, .step (.record name (.logged note)) (),
          .step (.record name (.selected id (ds.map Delivery.invocation))) (), .step (.readBus b) seen]))

/-- The bus and the event type whose table a call looks up. -/
def Call.looksUp? : Call μ → Option (BusId × EventType)
  | .post b event => some (b, event.type)
  | .reaches b type => some (b, type)
  | .assignable b type => some (b, type)
  | _ => none

/-- What a thread does in a call that looks up a table: all that follows goes by the table. -/
inductive Call.GoesBy (β : Behaviour μ) (n : Nat) (name : Thread) (table : Table) :
    (c : Call μ) → c.Reply → List (Deed μ) → Prop where
  | assignable {b : BusId} {type : EventType} {first : List (Deed μ)}
      (lookup : Lookup name b type table first) :
      GoesBy β n name table (.assignable b type) table.topics first
  | reaches {b : BusId} {type : EventType} {first : List (Deed μ)} (bus : Bus)
      (lookup : Lookup name b type table first) :
      GoesBy β n name table (.reaches b type) (!(bus.roster.select table).isEmpty)
        (first ++ [.step (.readBus b) bus])
  | post {b : BusId} {event : Event} {first last : List (Deed μ)} {id : PostId} {ds : List Delivery}
      {seen : Bus} {outcome : Outcome} (finds : FindsHandlers name b event table id ds seen first)
      (delivering : Proc.Ends (delivering (β.client (β.perform n name)) name id ds seen) last outcome) :
      GoesBy β n name table (.post b event) outcome (first ++ last)

theorem ends_tableOf {name : Thread} {b : BusId} {type : EventType} {deeds : List (Deed μ)}
    {table : Table} (h : Proc.Ends (tableOf name b type) deeds table) :
    Lookup name b type table deeds := by
  obtain ⟨bus, rest, rfl, hrest⟩ := Proc.ends_ask_bind h
  cases hkept : bus.tables.get? type with
  | some kept =>
    simp only [hkept] at hrest
    obtain ⟨rfl, rfl⟩ := Proc.ends_done hrest
    exact .found hkept
  | none =>
    simp only [hkept] at hrest
    obtain ⟨computed, rest', rfl, hkeep⟩ := Proc.ends_ask_bind hrest
    cases hkeep with
    | step hdone =>
      obtain ⟨rfl, rfl⟩ := Proc.ends_done hdone
      exact .computed hkept

theorem ends_selection {name : Thread} {b : BusId} {type : EventType} {deeds : List (Deed μ)}
    {found : List Selection} (h : Proc.Ends (selection name b type) deeds found) :
    ∃ table first bus, Lookup name b type table first ∧ deeds = first ++ [.step (.readBus b) bus] ∧
      found = bus.roster.select table := by
  obtain ⟨table, first, rest, hfirst, hrest, rfl⟩ := Proc.ends_bind h
  obtain ⟨bus, rest', rfl, hdone⟩ := Proc.ends_ask_bind hrest
  obtain ⟨rfl, rfl⟩ := Proc.ends_done hdone
  exact ⟨table, first, bus, ends_tableOf hfirst, rfl, rfl⟩

theorem ends_findHandlers {name : Thread} {b : BusId} {type : EventType} {deeds : List (Deed μ)}
    {found : List Selection} (h : Proc.Ends (findHandlers name b type) deeds found) :
    ∃ table first bus again note, Lookup name b type table first ∧
      deeds = first ++ [.step (.readBus b) bus, .step (.readBus b) again,
        .step (.record name (.logged note)) ()] ∧ found = bus.roster.select table := by
  obtain ⟨found', deeds', rest, hselection, hrest, rfl⟩ := Proc.ends_bind h
  obtain ⟨table, first, bus, hlookup, rfl, hfound⟩ := ends_selection hselection
  obtain ⟨again, rest', rfl, hlog⟩ := Proc.ends_ask_bind hrest
  have hnoted : ∃ note, rest' = [.step (.record name (.logged note)) ()] ∧ found = found' := by
    by_cases hempty : found'.isEmpty
    · rw [if_pos hempty] at hlog
      obtain ⟨_, rest'', rfl, hdone⟩ := Proc.ends_ask_bind hlog
      obtain ⟨rfl, rfl⟩ := Proc.ends_done hdone
      exact ⟨_, rfl, rfl⟩
    · rw [if_neg hempty] at hlog
      obtain ⟨_, rest'', rfl, hdone⟩ := Proc.ends_ask_bind hlog
      obtain ⟨rfl, rfl⟩ := Proc.ends_done hdone
      exact ⟨_, rfl, rfl⟩
  obtain ⟨note, rfl, rfl⟩ := hnoted
  exact ⟨table, first, bus, again, note, hlookup, List.append_assoc .., hfound⟩

/-- Whatever call looks up a table goes by it. -/
theorem Call.exists_goesBy {β : Behaviour μ} {n : Nat} {name : Thread} {c : Call μ}
    {key : BusId × EventType} (hc : c.looksUp? = some key) {deeds : List (Deed μ)} {answer : c.Reply}
    (h : Proc.Ends (β.perform (n + 1) name c) deeds answer) :
    ∃ table, c.GoesBy β n name table answer deeds := by
  cases c with
  | assignable b type =>
    obtain ⟨table, first, rest, hfirst, hrest, rfl⟩ := Proc.ends_bind h
    obtain ⟨rfl, rfl⟩ := Proc.ends_done hrest
    rw [List.append_nil]
    exact ⟨table, .assignable (ends_tableOf hfirst)⟩
  | reaches b type =>
    obtain ⟨found, first, rest, hfirst, hrest, rfl⟩ := Proc.ends_bind h
    obtain ⟨rfl, rfl⟩ := Proc.ends_done hrest
    obtain ⟨table, first, bus, hlookup, rfl, rfl⟩ := ends_selection hfirst
    rw [List.append_nil]
    exact ⟨table, .reaches bus hlookup⟩
  | post b event =>
    change Proc.Ends (PubSub.post _ name b event) deeds answer at h
    rw [post_eq] at h
    obtain ⟨⟨id, selected, seen⟩, before, last, hselecting, hdelivering, rfl⟩ := Proc.ends_bind h
    obtain ⟨id', deeds, rfl, hnumbered⟩ := Proc.ends_ask_bind hselecting
    obtain ⟨found, finding, noted, hfind, hnoted, rfl⟩ := Proc.ends_bind hnumbered
    obtain ⟨table, first, bus, again, note, hlookup, rfl, rfl⟩ := ends_findHandlers hfind
    obtain ⟨_, noted', rfl, hseeing⟩ := Proc.ends_ask_bind hnoted
    obtain ⟨seen', noted', rfl, hdone⟩ := Proc.ends_ask_bind hseeing
    obtain ⟨rfl, heq⟩ := Proc.ends_done hdone
    cases heq
    have hfinds : FindsHandlers name b event table id _ seen _ :=
      .selected bus again note hlookup rfl
    have hgoes := GoesBy.post (β := β) (n := n) hfinds hdelivering
    refine ⟨table, ?_⟩
    simpa only [List.append_assoc, List.cons_append, List.nil_append] using hgoes
  | _ => cases hc

theorem FindsHandlers.exists_lookup {name : Thread} {b : BusId} {event : Event} {table : Table}
    {id : PostId} {ds : List Delivery} {seen : Bus} {deeds : List (Deed μ)}
    (h : FindsHandlers name b event table id ds seen deeds) : ∃ first rest,
      deeds = .step .serial id :: (first ++ rest) ∧ Lookup name b event.type table first := by
  cases h with
  | selected bus again note lookup view => exact ⟨_, _, rfl, lookup⟩

/-- A call that looks up a table does not begin with computing one, and looks it up as it should. -/
theorem Call.GoesBy.exists_lookup {β : Behaviour μ} {n : Nat} {name : Thread} {table : Table}
    {c : Call μ} {answer : c.Reply} {deeds : List (Deed μ)} (h : c.GoesBy β n name table answer deeds)
    {b : BusId} {type : EventType} (hc : c.looksUp? = some (b, type)) :
    ∃ before first rest, deeds = before ++ (first ++ rest) ∧ Lookup name b type table first ∧
      ∀ deed ∈ before, ∃ id, deed = .step .serial id := by
  cases h with
  | assignable lookup =>
    cases hc
    exact ⟨[], deeds, [], (List.append_nil _).symm, lookup, List.forall_mem_nil _⟩
  | reaches bus lookup =>
    cases hc
    exact ⟨[], _, [_], rfl, lookup, List.forall_mem_nil _⟩
  | @post _ _ _ last id _ _ _ finds delivering =>
    cases hc
    obtain ⟨first, rest, rfl, lookup⟩ := finds.exists_lookup
    refine ⟨[.step .serial id], first, rest ++ last, ?_, lookup, List.forall_mem_singleton.mpr ⟨id, rfl⟩⟩
    rw [List.cons_append, List.append_assoc, List.singleton_append]

namespace Latest

/-- A table is computed by a thread that has just seen the bus without one, and kept by the thread that
has just computed it. No thread claims that declarations have run. -/
def Allows (latest : Option (Deed μ)) : Step μ → Prop
  | .computeTable _ b type =>
    ∃ bus, latest = some (.step (.readBus b) bus) ∧ bus.tables.get? type = none
  | .keepTable b type table => ∃ name, latest = some (.step (.computeTable name b type) table)
  | .record _ o => o.isDeclared = false
  | _ => True

@[reducible] def conduct : Conduct μ where
  Standing := Option (Deed μ)
  base _ := none
  allows := Allows
  trusts _ _ := True
  after _ s reply := some (.step s reply)
  take _ job := some (.took job)
  wake _ _ := some .woke
  trustsJob _ := True
  rests _ _ := True

theorem keeping_ask {s : Step μ} (hs : s.isOrdinary = true) :
    (conduct (μ := μ)).Keeping (fun _ => True) (ask s) := by
  refine fun g _ => obeys_ask ?_ fun _ _ => trivial
  cases s with
  | record t o => cases o <;> first | rfl | cases hs
  | computeTable | keepTable => cases hs
  | _ => trivial

theorem keeping_record (t : Thread) {o : Occurrence} (ho : o.isDeclared = false) :
    (conduct (μ := μ)).Keeping (fun _ => True) (Proc.record t o) :=
  fun _ _ => obeys_ask ho fun _ _ => trivial

theorem keeping_tableOf (t : Thread) (b : BusId) (type : EventType) :
    (conduct (μ := μ)).Keeping (fun _ => True) (tableOf t b type) := by
  refine fun g _ => Obeys.bind (obeys_ask trivial fun bus _ => ?_)
  cases hkept : bus.tables.get? type with
  | some table => exact trivial
  | none => exact Obeys.bind (obeys_ask ⟨bus, rfl, hkept⟩ fun table _ =>
      obeys_ask ⟨t, rfl⟩ fun _ _ => trivial)

theorem suits : (conduct (μ := μ)).Suits fun _ => True where
  ordinary _ hs := keeping_ask hs
  tabling := keeping_tableOf
  enrolling b s added _ _ _ := obeys_ask trivial fun _ _ => trivial
  selecting t b event := by
    refine (keeping_ask (s := .serial) rfl).bind fun id => ?_
    refine (keeping_findHandlers (fun _ hs => keeping_ask hs) t keeping_tableOf b event.type).bind
      fun found => ?_
    refine (keeping_record t rfl).bind fun _ => ?_
    exact (keeping_ask (s := .readBus b) rfl).bind fun bus => keeping_done _
  handing e job _ := by
    have hsend : (conduct (μ := μ)).Keeping (fun _ => True) (sendToWorkers e job) := by
      refine fun g _ => Obeys.bind (obeys_ask trivial fun borrowed _ => ?_)
      cases borrowed with
      | false => exact trivial
      | true => exact Obeys.bind (obeys_ask trivial fun _ _ =>
          Obeys.bind (obeys_ask trivial fun _ _ => trivial))
    refine (keeping_ask (s := .readExecutor e) rfl).bind fun executor => ?_
    cases executor with
    | manual m => exact fun g _ => Obeys.bind (obeys_ask trivial fun _ _ => trivial)
    | pool name p => exact hsend.bind fun _ => keeping_done _
    | runtime p => exact hsend.bind fun _ => keeping_done _
  opening x hx _ _ := obeys_ask trivial fun _ _ => trivial
  trusting _ := trivial
  calling t i object := keeping_record t rfl
  submitting t i := keeping_record t rfl
  answering t id outcome := keeping_record t rfl

theorem reliable : (conduct (μ := μ)).Reliable fun _ _ => True :=
  ⟨fun _ _ _ _ _ _ => trivial, fun _ _ _ _ _ _ _ => trivial, fun _ _ _ _ _ _ => trivial⟩

/-- In every run threads keep to this. -/
theorem lawful {β : Behaviour μ} {depth : Nat} {memory : μ} {body : Body μ α} {trace : Trace μ}
    {m : Machine μ α} (h : Run β depth memory body trace m) : conduct.Lawful trace m.world :=
  (Conduct.Run.lawful (suits.serves.governs (i := ()) (fun _ => trivial) (fun _ _ _ => trivial)
    (fun _ _ _ => trivial) (fun _ _ => Iff.rfl) β depth body) reliable h trivial).1

/-- The latest deed of a thread is in the trace, and the thread has done nothing since. -/
theorem exists_of_standing {trace : Trace μ} {t : Turn} {deed : Deed μ}
    (h : (conduct (μ := μ)).standing trace t = some deed) : ∃ between before : Trace μ,
      trace = between ++ (t, deed) :: before ∧ ∀ entry ∈ between, entry.1 ≠ t := by
  induction trace with
  | nil => cases h
  | cons entry trace ih =>
    obtain ⟨u, latest⟩ := entry
    rw [Conduct.standing_cons] at h
    split at h
    · rename_i hu
      subst hu
      have hlatest : latest = deed := by cases latest <;> exact Option.some.inj h
      exact ⟨[], trace, hlatest ▸ rfl, List.forall_mem_nil _⟩
    · rename_i hu
      obtain ⟨between, before, rfl, hbetween⟩ := ih h
      exact ⟨(u, latest) :: between, before, rfl,
        List.forall_mem_cons.mpr ⟨fun heq => hu heq.symm, hbetween⟩⟩

end Latest

section Tables

variable {trace : Trace μ} {w : World μ} {t : Turn} {b : BusId} {type : EventType} {table : Table}

/-- What a bus answers to a thread that wants it to keep a table is kept for good. -/
theorem Conduct.Lawful.kept_of_keep {C : Conduct μ} (h : C.Lawful trace w) {computed : Table}
    (hmem : (t, .step (.keepTable b type computed) table) ∈ trace) :
    (w.bus b).tables.get? type = some table := by
  obtain ⟨later, before, htrace⟩ := List.append_of_mem hmem
  obtain ⟨w₀, w₁, -, -, hrun, hextend⟩ := h.exists_step htrace
  obtain ⟨bus, hbus, heq⟩ := Option.map_eq_some_iff.mp hrun
  obtain ⟨rfl, rfl⟩ := Prod.mk.inj heq
  refine hextend.get?_tables ?_
  rw [World.bus_setBus _ _ _ (List.getElem?_eq_some_iff.mp hbus).1]
  exact bus.get?_keepTable type computed

/-- So is what a thread has seen on a bus. -/
theorem Conduct.Lawful.kept_of_read {C : Conduct μ} (h : C.Lawful trace w) {bus : Bus}
    (hmem : (t, .step (.readBus b) bus) ∈ trace) (hkept : bus.tables.get? type = some table) :
    (w.bus b).tables.get? type = some table := by
  obtain ⟨later, before, htrace⟩ := List.append_of_mem hmem
  obtain ⟨w₀, w₁, -, -, hrun, hextend⟩ := h.exists_step htrace
  obtain ⟨bus', hbus, heq⟩ := Option.map_eq_some_iff.mp hrun
  obtain ⟨rfl, rfl⟩ := Prod.mk.inj heq
  refine hextend.get?_tables ?_
  rwa [World.bus_of_getElem? hbus]

/-- A thread that has looked up a table has got the one that the bus keeps. -/
theorem Lookup.kept {C : Conduct μ} {name : Thread} {deeds : List (Deed μ)}
    (h : Lookup name b type table deeds) (hlawful : C.Lawful trace w)
    (hdone : ∀ deed ∈ deeds, (t, deed) ∈ trace) : (w.bus b).tables.get? type = some table := by
  cases h with
  | found hseen => exact hlawful.kept_of_read (hdone _ List.mem_cons_self) hseen
  | @computed bus computed fresh =>
    refine hlawful.kept_of_keep (hdone (.step (.keepTable b type computed) table) ?_)
    exact List.mem_cons_of_mem _ (List.mem_cons_of_mem _ List.mem_cons_self)

/-- Nobody has been given a table of this type to keep. -/
def Trace.KeepsNone (trace : Trace μ) (b : BusId) (type : EventType) : Prop :=
  ∀ t computed kept, (t, .step (.keepTable b type computed) kept) ∉ trace

/-- A thread that has done this can compute a table: it has seen the bus without one, at a moment at
which nobody had kept one. -/
def Trace.Lacks (before : Trace μ) (t : Turn) (b : BusId) (type : EventType) : Prop :=
  ∃ (between earlier : Trace μ) (bus : Bus), before = between ++ (t, .step (.readBus b) bus) :: earlier ∧
    (∀ entry ∈ between, entry.1 ≠ t) ∧ bus.tables.get? type = none ∧ earlier.KeepsNone b type

/-- How a bus came by the table that it keeps: a thread computed it from the declarations in force, and
was the first to keep one. -/
def Trace.Settles (trace : Trace μ) (b : BusId) (type : EventType) (table : Table) : Prop :=
  ∃ (later between before : Trace μ) (t : Turn) (name : Thread),
    trace = later ++ (t, .step (.keepTable b type table) table) ::
      (between ++ (t, .step (.computeTable name b type) table) :: before) ∧
    (∀ entry ∈ between, entry.1 ≠ t) ∧ Trace.KeepsNone (between ++ before) b type ∧
    table = before.declarations.table type

theorem Trace.Settles.cons (h : trace.Settles b type table) (entry : Turn × Deed μ) :
    Trace.Settles (entry :: trace) b type table := by
  obtain ⟨later, between, before, t, name, rfl, hrest⟩ := h
  exact ⟨entry :: later, between, before, t, name, rfl, hrest⟩

theorem Trace.Settles.exists_keep (h : trace.Settles b type table) :
    ∃ t, (t, .step (.keepTable b type table) table) ∈ trace := by
  obtain ⟨later, between, before, t, name, rfl, -⟩ := h
  exact ⟨t, List.mem_append_right later List.mem_cons_self⟩

namespace Latest

theorem follows (h : conduct.Lawful trace w) : w.Follows trace :=
  Conduct.Lawful.follows (fun _ _ _ allowed => allowed) h

/-- Whatever table is computed is that of the declarations in force. -/
theorem eq_of_compute (h : conduct.Lawful trace w) {later before : Trace μ} {name : Thread}
    (htrace : trace = later ++ (t, .step (.computeTable name b type) table) :: before) :
    table = before.declarations.table type := by
  obtain ⟨w₀, w₁, hlawful, -, hrun, -⟩ := h.exists_step htrace
  rw [← (follows hlawful).declarations]
  exact (congrArg Prod.fst (Option.some.inj hrun)).symm

theorem lacks_of_compute (h : conduct.Lawful trace w) {later before : Trace μ} {name : Thread}
    (htrace : trace = later ++ (t, .step (.computeTable name b type) table) :: before) :
    before.Lacks t b type := by
  obtain ⟨w₀, -, hlawful, ⟨bus, hlatest, hnone⟩, -⟩ := h.exists_step htrace
  obtain ⟨between, earlier, rfl, hbetween⟩ := exists_of_standing hlatest
  refine ⟨between, earlier, bus, rfl, hbetween, hnone, fun u computed kept hmem => ?_⟩
  -- What has been kept before the bus is read is seen there.
  obtain ⟨w₁, w₂, hearlier, -, hread, -⟩ := hlawful.exists_step rfl
  obtain ⟨bus', hbus, heq⟩ := Option.map_eq_some_iff.mp hread
  obtain ⟨rfl, -⟩ := Prod.mk.inj heq
  have hkept := hearlier.kept_of_keep hmem
  rw [World.bus_of_getElem? hbus, hnone] at hkept
  cases hkept

theorem settles (h : conduct.Lawful trace w) (hkept : (w.bus b).tables.get? type = some table) :
    trace.Settles b type table := by
  induction h with
  | start => cases hkept
  | @step trace w₀ w₁ t s reply before allowed world ih =>
    cases Step.contents world b with
    | same _ tables => exact (ih (tables ▸ hkept)).cons _
    | enrolled _ _ tables => exact (ih (tables ▸ hkept)).cons _
    | dismissed _ tables => exact (ih (tables ▸ hkept)).cons _
    | @kept type' computed step _ tables =>
      subst step
      rw [tables, Bus.keepTable] at hkept
      split at hkept
      · exact (ih hkept).cons _
      · rename_i hnone
        rw [Keyed.get?_insert] at hkept
        split at hkept
        · rename_i htype
          cases hkept
          subst htype
          obtain ⟨name, hlatest⟩ := allowed
          obtain ⟨between, earlier, rfl, hbetween⟩ := exists_of_standing hlatest
          have hreply : table = reply := by
            obtain ⟨bus, hbus, heq⟩ := Option.map_eq_some_iff.mp world
            rw [World.bus_of_getElem? hbus] at hnone
            have hkeep : (bus.keepTable type table).1 = table := by rw [Bus.keepTable, hnone]
            exact hkeep.symm.trans (Prod.mk.inj heq).1
          subst hreply
          refine ⟨[], between, earlier, t, name, rfl, hbetween, ?_, eq_of_compute before rfl⟩
          intro u computed kept hmem
          have hearlier := before.kept_of_keep
            ((List.Sublist.append_left (List.sublist_cons_self _ earlier) between).subset hmem)
          rw [hnone] at hearlier
          cases hearlier
        · exact (ih hkept).cons _
  | took _ _ _ world ih =>
    rw [World.bus, world.1] at hkept
    exact (ih hkept).cons _
  | woke _ _ _ world ih =>
    rw [World.bus, world.buses] at hkept
    exact (ih hkept).cons _
  | rested _ world ih =>
    rw [World.bus, world.buses] at hkept
    exact ih hkept

end Latest

end Tables

/-- The steps of a look-up on a bus. -/
def Step.looksUp (b : BusId) : Step μ → Bool
  | .readBus b' | .computeTable _ b' _ | .keepTable b' _ _ => b' = b
  | _ => false

/-- For an event type a bus goes by one table, from one moment of a run on: by the table of the type's
first use there. -/
structure GoesByFirstTable (β : Behaviour μ) (depth : Nat) (trace : Trace μ) (m : Machine μ α)
    (b : BusId) (type : EventType) : Prop where
  /-- Whenever a table is computed the declarations of the type's tree run, in post-order, and at no
  other time. -/
  follows : m.world.Follows trace
  /-- Only a thread that looked before anyone had kept a table computes one, from what is declared. -/
  computes : ∀ (later before : Trace μ) t name computed,
    trace = later ++ (t, .step (.computeTable name b type) computed) :: before →
      before.Lacks t b type ∧ computed = before.declarations.table type
  settles : ∀ table, (m.world.bus b).tables.get? type = some table → trace.Settles b type table
  frozen : ∀ later m' table, m.Course β depth later m' →
    (m.world.bus b).tables.get? type = some table → (m'.world.bus b).tables.get? type = some table
  /-- If nothing is declared between the first use and the moment at which it keeps its table, that is
  the table of what was declared when the use began, even if threads race. -/
  first : ∀ later m' table, m.Course β depth later m' →
    (∀ t name computed, (t, .step (.computeTable name b type) computed) ∉ trace) →
    (∀ t type steps, (t, .step (.declare type steps) ()) ∉ later) →
    (m'.world.bus b).tables.get? type = some table → table = m.world.declarations.table type
  /-- A call gets the table that the bus keeps, and computes none if there was one when it began. -/
  calls : ∀ later m' t name n (c : Call μ) deeds answer, m.Course β depth later m' →
    c.looksUp? = some (b, type) → deeds <+: later.deedsOf t →
    Proc.Ends (β.perform (n + 1) name c) deeds answer →
    ∃ table, (m'.world.bus b).tables.get? type = some table ∧ c.GoesBy β n name table answer deeds ∧
      ∀ kept, (m.world.bus b).tables.get? type = some kept → kept = table ∧
        ∀ name' computed, .step (.computeTable name' b type) computed ∉ deeds
  /-- Handlers get what the table that the bus keeps makes of their event. -/
  delivers : ∀ t name i object, (t, .step (.record name (.called i object)) ()) ∈ trace → i.bus = b →
    i.event.type = type → ∃ table route, (m.world.bus b).tables.get? type = some table ∧
      (i.subscription.topic, route) ∈ table ∧ route.follow i.event i.subscription.topic = some object
  /-- No other thread holds up one that looks a table up. -/
  unhindered : b < m.world.buses.length → ∀ later m' t s next, m.Course β depth later m' →
    m'.program? t = some (.step s next) → s.looksUp b = true → (m'.turn β depth t).isSome = true

section Runs

variable {β : Behaviour μ} {depth : Nat} {memory : μ} {body : Body μ α} {trace later : Trace μ}
  {m m' : Machine μ α} {b : BusId} {type : EventType} {table : Table}

/-- After a bus has got its table, only a thread that was about to compute one still does, and at once. -/
theorem Run.not_mem_of_compute (h : Run β depth memory body trace m)
    (hkept : (m.world.bus b).tables.get? type = some table) (hcourse : m.Course β depth later m')
    {t : Turn} {after before : Trace μ} {name : Thread} {computed : Table}
    (hlater : later = after ++ (t, .step (.computeTable name b type) computed) :: before) :
    ∀ entry ∈ before, entry.1 ≠ t := by
  have hsplit : later ++ trace =
      after ++ (t, .step (.computeTable name b type) computed) :: (before ++ trace) := by
    rw [hlater, List.append_assoc, List.cons_append]
  obtain ⟨between, earlier, bus, heq, hbetween, -, hnone⟩ :=
    Latest.lacks_of_compute (Latest.lawful (h.course hcourse)) hsplit
  rcases List.append_eq_append_iff.mp heq with ⟨more, rfl, -⟩ | ⟨more, rfl, htrace⟩
  · exact fun entry hentry => hbetween entry (List.mem_append_left more hentry)
  · cases more with
    | nil => rwa [List.append_nil]
    | cons entry more =>
      -- The thread would have looked after the bus had got its table.
      obtain ⟨-, rfl⟩ := List.cons.inj htrace
      obtain ⟨u, hkeep⟩ := (Latest.settles (Latest.lawful h) hkept).exists_keep
      exact absurd (List.mem_append_right more hkeep) (hnone u table table)

/-- A call that begins when the bus has its table runs no declaration of the type. -/
theorem Run.not_computes (h : Run β depth memory body trace m)
    (hkept : (m.world.bus b).tables.get? type = some table) (hcourse : m.Course β depth later m')
    {t : Turn} {name : Thread} {n : Nat} {c : Call μ} {deeds : List (Deed μ)} {used : Table}
    {answer : c.Reply} (hc : c.looksUp? = some (b, type)) (hdeeds : deeds <+: later.deedsOf t)
    (hgoes : c.GoesBy β n name used answer deeds) (name' : Thread) (computed : Table) :
    .step (.computeTable name' b type) computed ∉ deeds := by
  intro hmem
  obtain ⟨after, before, hlater⟩ := List.append_of_mem (Trace.mem_deedsOf.mp (hdeeds.subset hmem))
  have hbefore := h.not_mem_of_compute hkept hcourse hlater
  -- So the computation is the first thing that the thread does, but calls begin otherwise.
  have hhead : (later.deedsOf t).head? = some (.step (.computeTable name' b type) computed) := by
    rw [hlater, Trace.deedsOf_append, ← List.singleton_append, Trace.deedsOf_append,
      Trace.deedsOf_eq_nil hbefore, Trace.deedsOf]
    simp
  obtain ⟨more, heq⟩ := hdeeds
  obtain ⟨first, lookup, rest, rfl, hlookup, hfirst⟩ := hgoes.exists_lookup hc
  rw [← heq] at hhead
  cases first with
  | nil => cases hlookup <;> cases hhead
  | cons deed first =>
    obtain ⟨id, rfl⟩ := hfirst deed List.mem_cons_self
    cases hhead

theorem Run.eq_of_first (h : Run β depth memory body trace m) (hcourse : m.Course β depth later m')
    (hfresh : ∀ t name computed, (t, .step (.computeTable name b type) computed) ∉ trace)
    (hsame : ∀ t type steps, (t, .step (.declare type steps) ()) ∉ later)
    (hkept : (m'.world.bus b).tables.get? type = some table) :
    table = m.world.declarations.table type := by
  obtain ⟨after, between, before, t, name, heq, -, -, htable⟩ :=
    Latest.settles (Latest.lawful (h.course hcourse)) hkept
  rw [← List.cons_append, ← List.append_assoc] at heq
  rcases List.append_eq_append_iff.mp heq with ⟨more, -, htrace⟩ | ⟨more, rfl, hbefore⟩
  · exact absurd (htrace ▸ List.mem_append_right more List.mem_cons_self) (hfresh t name table)
  · cases more with
    | nil =>
      rw [List.nil_append] at hbefore
      exact absurd (hbefore ▸ List.mem_cons_self) (hfresh t name table)
    | cons entry more =>
      have hbefore : before = more ++ trace := (List.cons.inj hbefore).2
      have hmore : Trace.declarations (more ++ trace) = trace.declarations := by
        refine Trace.declarations_append ?_
        intro u type' steps hmem
        exact hsame u type' steps (List.mem_append_right _ (List.mem_cons_of_mem entry hmem))
      rw [htable, hbefore, hmore, (Latest.follows (Latest.lawful h)).declarations]

/-- Whatever is declared, whatever else happens and in whatever order: a bus computes a table once for
each event type, from what is declared at the first use, and goes by it for good. -/
theorem buses_go_by_first_tables (h : Run β depth memory body trace m) (b : BusId) (type : EventType) :
    GoesByFirstTable β depth trace m b type := by
  have hlawful := Latest.lawful h
  constructor
  · exact Latest.follows hlawful
  · exact fun later before t name computed htrace =>
      ⟨Latest.lacks_of_compute hlawful htrace, Latest.eq_of_compute hlawful htrace⟩
  · exact fun table hkept => Latest.settles hlawful hkept
  · exact fun later m' table hcourse hkept => hcourse.busesExtend.get?_tables hkept
  · exact fun later m' table hcourse => h.eq_of_first hcourse
  · intro later m' t name n c deeds answer hcourse hc hdeeds hends
    obtain ⟨table, hgoes⟩ := Call.exists_goesBy hc hends
    have hlater := Latest.lawful (h.course hcourse)
    have hdone : ∀ deed ∈ deeds, (t, deed) ∈ later ++ trace := fun deed hdeed =>
      List.mem_append_left trace (Trace.mem_deedsOf.mp (hdeeds.subset hdeed))
    have hkept' : (m'.world.bus b).tables.get? type = some table := by
      obtain ⟨before, first, rest, rfl, hlookup, -⟩ := hgoes.exists_lookup hc
      exact hlookup.kept hlater fun deed hdeed =>
        hdone deed (List.mem_append_right before (List.mem_append_left rest hdeed))
    refine ⟨table, hkept', hgoes, fun kept hkept => ⟨?_, h.not_computes hkept hcourse hc hdeeds hgoes⟩⟩
    exact Option.some.inj ((hcourse.busesExtend.get?_tables hkept).symm.trans hkept')
  · rintro t name i object hcalled rfl rfl
    exact (h.called hcalled).2
  · intro hopen later m' t s next hcourse hprogram hs
    refine Machine.isSome_turn β depth hprogram ?_
    have hbus := World.getElem?_buses (Nat.lt_of_lt_of_le hopen hcourse.busesExtend.length_le)
    cases s <;> first | rfl | (cases of_decide_eq_true hs; simp [Step.possible, hbus]) | cases hs

end Runs

/-- Two threads race for the first use on one bus, and both run the declarations. After a change that
bus goes on with what it has, and another bus starts from what is declared now. -/
theorem buses_go_by_first_tables_after_race :
    let base : EventType := ⟨"Base", "app::Base", 0⟩
    let tick : EventType := ⟨"Tick", "app::Tick", 1⟩
    let wide : Topic := .interface "Wide" "app::Wide"
    let β : Behaviour Unit := {
      handle _ _ := .done .fine
      observe _ _ := .done none
      work _ := .step (.assignable 0 tick) fun _ => .done none }
    let body : Body Unit (List Topic × List Topic) :=
      .step (.declare base [.to wide (.through none wide)]) fun _ =>
        .step (.declare tick [.inherit base (by decide) (.through none base)]) fun _ =>
          .step (.openBus .standard .publisher) fun first =>
            .step (.openBus .standard .publisher) fun second => .step (.startTask ⟨0⟩) fun _ =>
              .step (.assignable first tick) fun _ => .step (.declare base []) fun _ =>
                .step (.assignable first tick) fun old => .step (.assignable second tick) fun new =>
                  .done (old, new)
    ∃ trace m, Run β 1 () body trace m ∧
      m.results = [some ([.event tick, .event base, wide, .root], [.event tick, .event base, .root])] ∧
      trace.runs.map (fun o => match o with
        | .declared b type _ => some (b, type)
        | _ => none) =
          [some (0, base), some (0, tick), some (0, base), some (0, tick), some (1, base),
            some (1, tick)] ∧
      GoesByFirstTable β 1 trace m 0 tick := by
  intro base tick wide β body
  let turns : List Turn := List.replicate 6 (.caller 0) ++ List.replicate 3 (.task 0) ++
    [.caller 0, .task 0] ++ List.replicate 6 (.caller 0)
  have hseen : ((Machine.start β 1 () body).play β 1 turns).any (fun (trace, m) =>
      m.results = [some ([.event tick, .event base, wide, .root], [.event tick, .event base, .root])] ∧
      trace.runs.map (fun o => match o with
        | .declared b type _ => some (b, type)
        | _ => none) =
          [some (0, base), some (0, tick), some (0, base), some (0, tick), some (1, base),
            some (1, tick)]) = true := by
    decide +kernel
  obtain ⟨trace, m, hrun, hfacts⟩ := Run.exists_of_play hseen
  obtain ⟨hresults, hruns⟩ := of_decide_eq_true hfacts
  exact ⟨trace, m, hrun, hresults, hruns, buses_go_by_first_tables hrun 0 tick⟩

end PubSub
