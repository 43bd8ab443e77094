import Mathlib.Data.List.Perm.Basic
import PubSub.Machine

/-!
# What steps change

Buses stay open, their configuration never changes and their tables are never replaced. Jobs come
to executors and leave them one at a time. Locks, rosters and tables change by a few steps only.
-/
namespace PubSub

variable {μ : Type}

/-- What a bus keeps for good. -/
structure Bus.Extends (bus' bus : Bus) : Prop where
  settings : bus'.settings = bus.settings
  discipline : bus'.discipline = bus.discipline
  tables : ∀ type table, bus.tables.get? type = some table → bus'.tables.get? type = some table

namespace Bus

theorem Extends.refl (bus : Bus) : bus.Extends bus := ⟨rfl, rfl, fun _ _ h => h⟩

theorem keepTable_extends (bus : Bus) (type : EventType) (table : Table) :
    (bus.keepTable type table).2.Extends bus := by
  unfold keepTable
  cases hkept : bus.tables.get? type with
  | some kept => exact .refl bus
  | none =>
    refine ⟨rfl, rfl, ?_⟩
    intro type' table' h
    have hne : type' ≠ type := by
      rintro rfl
      rw [hkept] at h
      cases h
    rw [Keyed.get?_insert, if_neg hne]
    exact h

end Bus

def Executor.jobs : Executor → List Job
  | .manual m => m.jobs
  | .pool _ p => p.queue
  | .runtime p => p.queue

def Occurrence.invocation? : Occurrence → Option Invocation
  | .called i _ => some i
  | .ended i _ => some i
  | .reported i _ _ _ => some i
  | .submitted i => some i
  | .dropped i _ => some i
  | .settled i => some i
  | _ => none

namespace World

variable {w : World μ}

/-- The jobs that executors keep. -/
def jobs (w : World μ) : List Job := w.executors.flatMap Executor.jobs

/-- Everything that has happened to an invocation, in the order in which it happened. -/
def account (w : World μ) (i : Invocation) : List Occurrence :=
  (w.history.reverse.map Entry.occurrence).filter (·.invocation? = some i)

theorem account_record (t : Thread) (o : Occurrence) (i : Invocation) :
    (w.record t o).account i = w.account i ++ if o.invocation? = some i then [o] else [] := by
  unfold account record
  rw [List.reverse_cons, List.map_append, List.filter_append, List.map_singleton, List.filter_cons]
  by_cases h : o.invocation? = some i <;> simp [h]

/-- Occurrences that belong to no invocation are in no account. -/
theorem account_recordAll {l : List Occurrence} (h : ∀ o ∈ l, o.invocation? = none) (t : Thread)
    (i : Invocation) : (w.recordAll t l).account i = w.account i := by
  unfold recordAll
  induction l generalizing w with
  | nil => rfl
  | cons o l ih =>
    rw [List.foldl_cons, ih fun o ho => h o (List.mem_cons_of_mem _ ho), account_record,
      h o List.mem_cons_self]
    simp

theorem recordAll_eq (t : Thread) (l : List Occurrence) :
    w.recordAll t l = { w with history := (w.recordAll t l).history } := by
  unfold recordAll
  induction l generalizing w with
  | nil => rfl
  | cons o l ih =>
    rw [List.foldl_cons]
    exact ih

/-- The first world is later than the second: it has all its buses. -/
def BusesExtend (w' w : World μ) : Prop :=
  ∀ (b : BusId) bus, w.buses[b]? = some bus → ∃ bus', w'.buses[b]? = some bus' ∧ bus'.Extends bus

theorem BusesExtend.length_le {w' : World μ} (h : w'.BusesExtend w) :
    w.buses.length ≤ w'.buses.length := by
  by_contra hlt
  obtain ⟨bus, hbus, -⟩ := h w'.buses.length _ (w.getElem?_buses (Nat.lt_of_not_le hlt))
  exact Nat.lt_irrefl _ (List.getElem?_eq_some_iff.mp hbus).1

theorem BusesExtend.trans {w w' w'' : World μ} (h : w''.BusesExtend w')
    (h' : w'.BusesExtend w) : w''.BusesExtend w := by
  intro b bus hbus
  obtain ⟨bus', hbus', hext⟩ := h' b bus hbus
  obtain ⟨bus'', hbus'', hext'⟩ := h b bus' hbus'
  refine ⟨bus'', hbus'', hext'.settings.trans hext.settings, hext'.discipline.trans hext.discipline, ?_⟩
  exact fun type table htable => hext'.tables type table (hext.tables type table htable)

theorem BusesExtend.discipline {w' : World μ} (h : w'.BusesExtend w) {b : BusId}
    (hb : b < w.buses.length) : (w'.bus b).discipline = (w.bus b).discipline := by
  obtain ⟨bus', hbus', hextends⟩ := h b _ (World.getElem?_buses hb)
  rw [World.bus_of_getElem? hbus', hextends.discipline]

theorem isOpen_of_get?_tables {b : BusId} {type : EventType} {table : Table}
    (hkept : (w.bus b).tables.get? type = some table) : b < w.buses.length := by
  by_contra hclosed
  rw [World.bus, List.getElem?_eq_none (Nat.le_of_not_lt hclosed)] at hkept
  cases hkept

/-- A table that a bus keeps is kept for good. -/
theorem BusesExtend.get?_tables {w' : World μ} (h : w'.BusesExtend w) {b : BusId} {type : EventType}
    {table : Table} (hkept : (w.bus b).tables.get? type = some table) :
    (w'.bus b).tables.get? type = some table := by
  obtain ⟨bus', hbus', hextends⟩ := h b _ (World.getElem?_buses (isOpen_of_get?_tables hkept))
  rw [World.bus_of_getElem? hbus']
  exact hextends.tables type table hkept

theorem bus_setBus_eq (b b' : BusId) (bus : Bus) :
    (w.setBus b bus).bus b' = if b = b' ∧ b < w.buses.length then bus else w.bus b' := by
  by_cases hb : b = b'
  · subst hb
    by_cases hopen : b < w.buses.length
    · rw [bus_setBus w b bus hopen, if_pos ⟨rfl, hopen⟩]
    · rw [setBus_of_le w bus (Nat.le_of_not_lt hopen), if_neg fun h => hopen h.2]
  · rw [bus_setBus_of_ne w bus hb, if_neg fun h => hb h.1]

theorem bus_append (bus : Bus) (b : BusId) :
    World.bus { w with buses := w.buses ++ [bus] } b = if b = w.buses.length then bus else w.bus b := by
  rw [World.bus, World.bus]
  rcases Nat.lt_trichotomy b w.buses.length with hlt | rfl | hgt
  · rw [List.getElem?_append_left hlt, if_neg (Nat.ne_of_lt hlt)]
  · rw [List.getElem?_concat_length, if_pos rfl]
    rfl
  · rw [List.getElem?_eq_none, List.getElem?_eq_none (Nat.le_of_lt hgt), if_neg (Nat.ne_of_gt hgt)]
    rw [List.length_append]
    exact hgt

/-- A bus that was never opened is like a new one. -/
theorem bus_of_length_le {b : BusId} (h : w.buses.length ≤ b) : w.bus b = default := by
  rw [World.bus, List.getElem?_eq_none h]
  rfl

theorem jobs_setExecutor {e : ExecutorId} {x : Executor} (he : e < w.executors.length)
    {gained lost : List Job} (h : (lost ++ x.jobs).Perm (gained ++ (w.executor e).jobs)) :
    (lost ++ (w.setExecutor e x).jobs).Perm (gained ++ w.jobs) := by
  have hsplit : w.executors = w.executors.take e ++ w.executor e :: w.executors.drop (e + 1) := by
    rw [World.executor, List.getElem?_eq_getElem he, Option.getD_some, ← List.drop_eq_getElem_cons he,
      List.take_append_drop]
  have hset : (w.setExecutor e x).executors =
      w.executors.take e ++ x :: w.executors.drop (e + 1) := by
    rw [setExecutor, List.set_eq_take_append_cons_drop, if_pos he]
  unfold jobs
  rw [hset, List.flatMap_append, List.flatMap_cons]
  conv => rhs; rw [hsplit, List.flatMap_append, List.flatMap_cons]
  generalize (w.executors.take e).flatMap Executor.jobs = before
  generalize (w.executors.drop (e + 1)).flatMap Executor.jobs = behind
  calc lost ++ (before ++ (x.jobs ++ behind))
      _ = lost ++ before ++ (x.jobs ++ behind) := (List.append_assoc ..).symm
      _ |>.Perm (before ++ lost ++ (x.jobs ++ behind)) := List.perm_append_comm.append_right _
      _ = before ++ ((lost ++ x.jobs) ++ behind) := by simp only [List.append_assoc]
      _ |>.Perm (before ++ ((gained ++ (w.executor e).jobs) ++ behind)) :=
        (h.append_right behind).append_left before
      _ = before ++ gained ++ ((w.executor e).jobs ++ behind) := by simp only [List.append_assoc]
      _ |>.Perm (gained ++ before ++ ((w.executor e).jobs ++ behind)) :=
        List.perm_append_comm.append_right _
      _ = gained ++ (before ++ ((w.executor e).jobs ++ behind)) := List.append_assoc ..

theorem executor_eq_absent {e : ExecutorId} (he : w.executors.length ≤ e) :
    w.executor e = .absent := by
  rw [executor, List.getElem?_eq_none he]
  rfl

/-- Nothing changes where no executor is open. -/
theorem setExecutor_of_le {e : ExecutorId} (x : Executor) (he : w.executors.length ≤ e) :
    w.setExecutor e x = w := by
  simp only [setExecutor, List.set_eq_of_length_le he]

theorem jobs_setPool {e : ExecutorId} {p : Pool Job} (gained lost : List Job)
    (h : (lost ++ p.queue).Perm (gained ++ (w.pool e).queue))
    (hhas : (w.executor e).pool? = none → gained = [] ∧ lost = []) :
    (lost ++ (w.setPool e p).jobs).Perm (gained ++ w.jobs) := by
  by_cases he : e < w.executors.length
  · refine jobs_setExecutor he ?_
    unfold World.pool at h
    cases hx : w.executor e with
    | manual m =>
      obtain ⟨rfl, rfl⟩ := hhas (by rw [hx]; rfl)
      exact .refl _
    | pool name q => rwa [hx] at h
    | runtime q => rwa [hx] at h
  · have he := Nat.le_of_not_lt he
    obtain ⟨rfl, rfl⟩ := hhas (by rw [executor_eq_absent he]; rfl)
    rw [setPool, setExecutor_of_le _ he]

/-- Only what workers and submitters have in hand changes. -/
theorem jobs_setPool_of_queue_eq {e : ExecutorId} {p : Pool Job} (h : p.queue = (w.pool e).queue) :
    (w.setPool e p).jobs.Perm w.jobs :=
  jobs_setPool [] [] (h ▸ .refl _) fun _ => ⟨rfl, rfl⟩

end World

namespace Step

/-- The jobs that a step hands over to executors. -/
def gained : (s : Step μ) → s.Reply → List Job
  | .offer _ job, true => [job]
  | .send _ job, true => [job]
  | .openExecutor x, _ => x.jobs
  | _, _ => []

/-- The jobs that a step takes away from executors. -/
def lost : (s : Step μ) → s.Reply → List Job
  | .pick _ _, some job => [job]
  | _, _ => []

def occurrence? : Step μ → Option Occurrence
  | .record _ o => some o
  | _ => none

/-- The serial that a step gives out. -/
def numbered? : (s : Step μ) → s.Reply → Option Nat
  | .serial, n => some n
  | .startTask _, n => some n
  | _, _ => none

def touchesLocks : Step μ → Bool
  | .share _ _ | .acquire _ _ _ | .release _ _ | .unshare _ _ | .discard _ _ | .prune _ => true
  | _ => false

def touchesTables : Step μ → Bool
  | .keepTable _ _ _ | .enrol _ _ _ | .dismiss _ _ => true
  | _ => false

/-- What any step does to a world, as far as threads depend on it. -/
structure Effect (s : Step μ) (reply : s.Reply) (w w' : World μ) : Prop where
  buses : w'.BusesExtend w
  locks : s.touchesLocks = false → ∀ b, (w'.bus b).locks = (w.bus b).locks
  tables : s.touchesTables = false → ∀ b,
    (w'.bus b).roster = (w.bus b).roster ∧ (w'.bus b).tables = (w.bus b).tables
  jobs : (s.lost reply ++ w'.jobs).Perm (s.gained reply ++ w.jobs)
  account : ∀ i, w'.account i =
    w.account i ++ s.occurrence?.toList.filter (·.invocation? = some i)
  serial : (s.numbered? reply).elim (w'.serial = w.serial) fun n =>
    n = w.serial ∧ w'.serial = w.serial + 1
  tasks : ∀ n body, w'.tasks.get? n = some (.ready body) →
    w.tasks.get? n = some (.ready body) ∨ s = .startTask body ∧ n = w.serial

variable {s : Step μ} {reply : s.Reply} {w w' : World μ}

theorem account_eq (h : s.occurrence? = none) (i : Invocation) :
    w.account i ++ s.occurrence?.toList.filter (·.invocation? = some i) = w.account i := by
  rw [h, Option.toList_none, List.filter_nil, List.append_nil]

theorem buses_of_eq (h : w'.buses = w.buses) : w'.BusesExtend w :=
  fun _ bus hbus => ⟨bus, h ▸ hbus, .refl bus⟩

/-- A step that leaves buses, executors and the history alone, and gives out no serial. -/
theorem Effect.aside {declarations : Declarations} {tasks : Keyed Nat Task} {memory : μ}
    (hjobs : s.lost reply = [] ∧ s.gained reply = []) (hocc : s.occurrence? = none)
    (hnum : s.numbered? reply = none)
    (htasks : ∀ n body, tasks.get? n = some (.ready body) →
      w.tasks.get? n = some (.ready body)) :
    s.Effect reply w { w with declarations, tasks, memory } where
  buses := buses_of_eq rfl
  locks _ _ := rfl
  tables _ _ := ⟨rfl, rfl⟩
  jobs := by rw [hjobs.1, hjobs.2]; exact .refl _
  account i := (account_eq hocc i).symm
  serial := by rw [hnum]; rfl
  tasks n body h := .inl (htasks n body h)

/-- A step that only reads. -/
theorem Effect.same (hjobs : s.lost reply = [] ∧ s.gained reply = []) (hocc : s.occurrence? = none)
    (hnum : s.numbered? reply = none) : s.Effect reply w w :=
  .aside hjobs hocc hnum fun _ _ h => h

/-- A step that changes one bus. -/
theorem Effect.bus {b : BusId} {bus : Bus} (hbus : bus.Extends (w.bus b))
    (hlocks : s.touchesLocks = false → bus.locks = (w.bus b).locks)
    (htables : s.touchesTables = false →
      bus.roster = (w.bus b).roster ∧ bus.tables = (w.bus b).tables)
    (hjobs : s.lost reply = [] ∧ s.gained reply = []) (hocc : s.occurrence? = none)
    (hnum : s.numbered? reply = none) : s.Effect reply w (w.setBus b bus) where
  buses := by
    intro b' bus' hbus'
    by_cases hb : b = b'
    · subst hb
      rw [World.bus_of_getElem? hbus'] at hbus
      exact ⟨bus, List.getElem?_set_self (List.getElem?_eq_some_iff.mp hbus').1, hbus⟩
    · exact ⟨bus', (List.getElem?_set_ne hb).trans hbus', .refl bus'⟩
  locks h b' := by
    rw [World.bus_setBus_eq]
    split
    · rename_i hb
      exact hb.1 ▸ hlocks h
    · rfl
  tables h b' := by
    rw [World.bus_setBus_eq]
    split
    · rename_i hb
      exact hb.1 ▸ htables h
    · exact ⟨rfl, rfl⟩
  jobs := by rw [hjobs.1, hjobs.2]; exact .refl _
  account i := (account_eq hocc i).symm
  serial := by rw [hnum]; rfl
  tasks _ _ h := .inl h

/-- A step that changes the locks of one bus. -/
theorem Effect.ofLocks {b : BusId} {locks : Locks} (hlocks : s.touchesLocks = true)
    (hjobs : s.lost reply = [] ∧ s.gained reply = []) (hocc : s.occurrence? = none)
    (hnum : s.numbered? reply = none) : s.Effect reply w (w.setLocks b locks) :=
  .bus ⟨rfl, rfl, fun _ _ h => h⟩ (fun h => absurd hlocks (h ▸ Bool.false_ne_true))
    (fun _ => ⟨rfl, rfl⟩) hjobs hocc hnum

/-- A step that changes the executors. -/
theorem Effect.ofExecutors {executors : List Executor}
    (hjobs : (s.lost reply ++ World.jobs { w with executors }).Perm (s.gained reply ++ w.jobs))
    (hocc : s.occurrence? = none) (hnum : s.numbered? reply = none) :
    s.Effect reply w { w with executors } where
  buses := buses_of_eq rfl
  locks _ _ := rfl
  tables _ _ := ⟨rfl, rfl⟩
  jobs := hjobs
  account i := (account_eq hocc i).symm
  serial := by rw [hnum]; rfl
  tasks _ _ h := .inl h

/-- A step that changes one executor, if there is one. -/
theorem Effect.ofExecutor {e : ExecutorId} {x : Executor}
    (hjobs : (s.lost reply ++ x.jobs).Perm (s.gained reply ++ (w.executor e).jobs))
    (habsent : w.executor e = .absent → s.lost reply = [] ∧ s.gained reply = [])
    (hocc : s.occurrence? = none) (hnum : s.numbered? reply = none) :
    s.Effect reply w (w.setExecutor e x) := by
  refine .ofExecutors ?_ hocc hnum
  by_cases he : e < w.executors.length
  · exact World.jobs_setExecutor he hjobs
  · have he := Nat.le_of_not_lt he
    obtain ⟨hlost, hgained⟩ := habsent (World.executor_eq_absent he)
    have hsame := World.setExecutor_of_le (w := w) x he
    rw [World.setExecutor] at hsame
    rw [hsame, hlost, hgained]

theorem Effect.ofOffer (e : ExecutorId) (job : Job) :
    Effect (.offer e job) ((w.executor e).offer job).1 w
      (w.setExecutor e ((w.executor e).offer job).2) := by
  refine .ofExecutor ?_ (fun habsent => by rw [habsent]; exact ⟨rfl, rfl⟩) rfl rfl
  cases w.executor e with
  | manual m =>
    simp only [Executor.offer]
    have hstored : (m.jobs ++ [job]).Perm ([job] ++ m.jobs) := List.perm_append_comm
    split
    · exact hstored
    · exact .refl _
    · exact hstored
  | pool name p => exact .refl _
  | runtime p => exact .refl _

theorem Effect.ofPick (e : ExecutorId) (place : Nat) :
    Effect (.pick e place) ((w.executor e).pick place).1 w
      (w.setExecutor e ((w.executor e).pick place).2) := by
  refine .ofExecutor ?_ (fun habsent => by rw [habsent]; exact ⟨rfl, rfl⟩) rfl rfl
  cases w.executor e with
  | manual m =>
    simp only [Executor.pick]
    cases hjob : m.jobs[place]? with
    | none =>
      rw [List.eraseIdx_of_length_le (List.getElem?_eq_none_iff.mp hjob)]
      exact .refl _
    | some job =>
      obtain ⟨hlt, rfl⟩ := List.getElem?_eq_some_iff.mp hjob
      exact List.getElem_cons_eraseIdx_perm hlt
  | pool name p => exact .refl _
  | runtime p => exact .refl _

/-- An executor without workers takes no job. -/
theorem send_of_pool?_eq_none {e : ExecutorId} (h : (w.executor e).pool? = none) (job : Job) :
    (w.pool e).send job = some (false, w.pool e) := by
  rw [World.pool, h]
  rfl

theorem Effect.ofSend {e : ExecutorId} {job : Job} {sent : Bool} {p : Pool Job}
    (h : (w.pool e).send job = some (sent, p)) :
    Effect (.send e job) sent w (w.setPool e p) := by
  refine .ofExecutors ?_ rfl rfl
  refine World.jobs_setPool _ _ ?_ ?_
  · rw [Pool.send] at h
    split at h
    · cases h; exact .refl _
    · split at h
      · cases h
        have hqueued : ((w.pool e).queue ++ [job]).Perm ([job] ++ (w.pool e).queue) :=
          List.perm_append_comm
        exact hqueued
      · cases h
  · intro hnone
    rw [send_of_pool?_eq_none hnone] at h
    cases h
    exact ⟨rfl, rfl⟩

/-- A bus that has just been opened is as empty as one that was never opened. -/
theorem bus_openBus (w : World μ) (settings : BusSettings) (discipline : Discipline) (b : BusId) :
    let opened : World μ := { w with buses := w.buses ++ [.fresh settings discipline] }
    (opened.bus b).locks = (w.bus b).locks ∧ (opened.bus b).roster = (w.bus b).roster ∧
      (opened.bus b).tables = (w.bus b).tables := by
  intro opened
  have hbus : opened.bus b = _ := World.bus_append _ b
  rw [hbus]
  split
  · rename_i hb
    rw [World.bus_of_length_le (Nat.le_of_eq hb.symm)]
    exact ⟨rfl, rfl, rfl⟩
  · exact ⟨rfl, rfl, rfl⟩

/-- A step on the workers and senders of one executor that leaves its queue alone. -/
theorem Effect.ofPool {e : ExecutorId} {p : Pool Job} (hqueue : p.queue = (w.pool e).queue)
    (hjobs : s.lost reply = [] ∧ s.gained reply = []) (hocc : s.occurrence? = none)
    (hnum : s.numbered? reply = none) : s.Effect reply w (w.setPool e p) := by
  refine .ofExecutors ?_ hocc hnum
  rw [hjobs.1, hjobs.2]
  exact World.jobs_setPool_of_queue_eq hqueue

theorem Effect.ofBorrow {e : ExecutorId} {p : Pool Job} (h : (w.pool e).borrow = some p) :
    Effect (.borrow e) true w (w.setPool e p) := by
  refine .ofPool ?_ ⟨rfl, rfl⟩ rfl rfl
  rw [Pool.borrow] at h
  split at h <;> cases h
  rfl

theorem Effect.ofOpenExecutor (x : Executor) :
    Effect (.openExecutor x) w.executors.length w { w with executors := w.executors ++ [x] } := by
  refine .ofExecutors ?_ rfl rfl
  have hjobs : World.jobs { w with executors := w.executors ++ [x] } = w.jobs ++ x.jobs := by
    rw [World.jobs, List.flatMap_append, List.flatMap_singleton]
    rfl
  rw [hjobs]
  exact (List.perm_append_comm : (w.jobs ++ x.jobs).Perm (x.jobs ++ w.jobs))

/-- A step that changes the roster of one bus. -/
theorem Effect.ofRoster {b : BusId} {roster : Roster} (htables : s.touchesTables = true)
    (hjobs : s.lost reply = [] ∧ s.gained reply = []) (hocc : s.occurrence? = none)
    (hnum : s.numbered? reply = none) : s.Effect reply w (w.setBus b { w.bus b with roster }) :=
  .bus ⟨rfl, rfl, fun _ _ h => h⟩ (fun _ => rfl) (fun h => absurd htables (h ▸ Bool.false_ne_true))
    hjobs hocc hnum

theorem Effect.ofKeepTable {b : BusId} {bus : Bus} (hbus : w.buses[b]? = some bus) (type : EventType)
    (table : Table) : Effect (.keepTable b type table) (bus.keepTable type table).1 w
      (w.setBus b (bus.keepTable type table).2) := by
  have hsame := World.bus_of_getElem? hbus
  subst hsame
  refine .bus (Bus.keepTable_extends ..) (fun _ => ?_) (fun h => by cases h) ⟨rfl, rfl⟩ rfl rfl
  unfold Bus.keepTable
  split <;> rfl

/-- A step that opens a bus. -/
theorem Effect.ofOpenBus (settings : BusSettings) (discipline : Discipline) :
    Effect (.openBus settings discipline) w.buses.length w
      { w with buses := w.buses ++ [.fresh settings discipline] } where
  buses _ bus hbus :=
    ⟨bus, (List.getElem?_append_left (List.getElem?_eq_some_iff.mp hbus).1).trans hbus, .refl bus⟩
  locks _ b := (bus_openBus w settings discipline b).1
  tables _ b := (bus_openBus w settings discipline b).2
  jobs := .refl _
  account i := (account_eq rfl i).symm
  serial := rfl
  tasks _ _ h := .inl h

/-- A step that writes into the history. -/
theorem Effect.ofHistory {history : List Entry}
    (haccount : ∀ i, World.account { w with history } i =
      w.account i ++ s.occurrence?.toList.filter (·.invocation? = some i))
    (hjobs : s.lost reply = [] ∧ s.gained reply = []) (hnum : s.numbered? reply = none) :
    s.Effect reply w { w with history } where
  buses := buses_of_eq rfl
  locks _ _ := rfl
  tables _ _ := ⟨rfl, rfl⟩
  jobs := by rw [hjobs.1, hjobs.2]; exact .refl _
  account := haccount
  serial := by rw [hnum]; rfl
  tasks _ _ h := .inl h

theorem Effect.ofRecord (t : Thread) (o : Occurrence) : Effect (.record t o) () w (w.record t o) := by
  refine .ofHistory (fun i => ?_) ⟨rfl, rfl⟩ rfl
  have haccount := World.account_record (w := w) t o i
  rw [World.record] at haccount
  rw [haccount]
  by_cases hi : o.invocation? = some i <;> simp [occurrence?, hi]

/-- What declarations show belongs to no invocation. -/
theorem Effect.ofComputeTable (t : Thread) (b : BusId) (type : EventType) :
    Effect (.computeTable t b type) (w.declarations.table type) w
      (w.recordAll t ((w.declarations.runs type).map fun run => .declared b run.1 run.2)) := by
  have hnone : ∀ o ∈ (w.declarations.runs type).map (fun run => Occurrence.declared b run.1 run.2),
      o.invocation? = none := by
    intro o ho
    obtain ⟨run, -, rfl⟩ := List.mem_map.mp ho
    rfl
  have haccount := World.account_recordAll (w := w) hnone t
  rw [World.recordAll_eq] at haccount ⊢
  exact .ofHistory (fun i => (haccount i).trans (account_eq rfl i).symm) ⟨rfl, rfl⟩ rfl

/-- A step that gives out a serial. -/
theorem Effect.ofSerial {tasks : Keyed Nat Task} (hjobs : s.lost reply = [] ∧ s.gained reply = [])
    (hocc : s.occurrence? = none) (hnum : s.numbered? reply = some w.serial)
    (htasks : ∀ n body, tasks.get? n = some (.ready body) →
      w.tasks.get? n = some (.ready body) ∨ s = .startTask body ∧ n = w.serial) :
    s.Effect reply w { w with tasks, serial := w.serial + 1 } where
  buses := buses_of_eq rfl
  locks _ _ := rfl
  tables _ _ := ⟨rfl, rfl⟩
  jobs := by rw [hjobs.1, hjobs.2]; exact .refl _
  account i := (account_eq hocc i).symm
  serial := by rw [hnum]; exact ⟨rfl, rfl⟩
  tasks := htasks

theorem Effect.ofStartTask (body : CodeId) : Effect (.startTask body) w.serial w
    { w.setTask w.serial (.ready body) with serial := w.serial + 1 } := by
  refine .ofSerial ⟨rfl, rfl⟩ rfl rfl fun n body' hn => ?_
  rw [World.setTask, Keyed.get?_insert] at hn
  split at hn
  · rename_i hnew
    cases hn
    exact .inr ⟨rfl, hnew⟩
  · exact .inl hn

theorem Effect.ofJoinTask (task : Nat) :
    Effect (.joinTask task) () w { w with tasks := w.tasks.erase task } := by
  refine .aside ⟨rfl, rfl⟩ rfl rfl fun n body hn => ?_
  rw [Keyed.get?_erase] at hn
  split at hn
  · cases hn
  · exact hn

/-- What a step does to the world. -/
theorem run_effect (h : s.run w = some (reply, w')) : s.Effect reply w w' := by
  cases s with
  | readExecutor | time => cases h; exact .same ⟨rfl, rfl⟩ rfl rfl
  | readBus b =>
    obtain ⟨bus, -, heq⟩ := Option.map_eq_some_iff.mp h
    cases heq
    exact .same ⟨rfl, rfl⟩ rfl rfl
  | join | rest | await =>
    rw [run] at h; split at h <;> cases h
    exact .same ⟨rfl, rfl⟩ rfl rfl
  | record t o => cases h; exact .ofRecord t o
  | computeTable t b type => cases h; exact .ofComputeTable t b type
  | keepTable b type table =>
    obtain ⟨bus, hbus, heq⟩ := Option.map_eq_some_iff.mp h
    cases heq
    exact .ofKeepTable hbus type table
  | enrol | dismiss =>
    rw [run] at h
    split at h <;> cases h
    · exact .ofRoster rfl ⟨rfl, rfl⟩ rfl rfl
    · exact .same ⟨rfl, rfl⟩ rfl rfl
  | share | acquire =>
    obtain ⟨_, -, heq⟩ := Option.map_eq_some_iff.mp h
    cases heq
    exact .ofLocks rfl ⟨rfl, rfl⟩ rfl rfl
  | release | unshare | discard | prune => cases h; exact .ofLocks rfl ⟨rfl, rfl⟩ rfl rfl
  | offer e job => cases h; exact .ofOffer e job
  | pick e place => cases h; exact .ofPick e place
  | borrow e =>
    rw [run] at h
    split at h <;> cases h
    · exact .ofBorrow ‹_›
    · exact .same ⟨rfl, rfl⟩ rfl rfl
  | send e job =>
    obtain ⟨⟨sent, p⟩, hsend, heq⟩ := Option.map_eq_some_iff.mp h
    cases heq
    exact .ofSend hsend
  | giveBack | close | claim => cases h; exact .ofPool rfl ⟨rfl, rfl⟩ rfl rfl
  | setRoom e room =>
    cases h
    refine .ofExecutor ?_ (fun _ => ⟨rfl, rfl⟩) rfl rfl
    cases w.executor e <;> exact .refl _
  | serial => cases h; exact .ofSerial ⟨rfl, rfl⟩ rfl rfl fun _ _ h => .inl h
  | startTask body => cases h; exact .ofStartTask body
  | joinTask task =>
    rw [run] at h; split at h <;> cases h
    exact .ofJoinTask task
  | openBus settings discipline => cases h; exact .ofOpenBus settings discipline
  | openExecutor x => cases h; exact .ofOpenExecutor x
  | declare | memory => cases h; exact .aside ⟨rfl, rfl⟩ rfl rfl fun _ _ h => h

/-- Only the opening of a bus opens a bus. -/
theorem length_buses (h : s.run w = some (reply, w'))
    (hs : ∀ settings discipline, s ≠ .openBus settings discipline) :
    w'.buses.length = w.buses.length := by
  cases s with
  | openBus settings discipline => exact absurd rfl (hs settings discipline)
  | computeTable thread b type =>
    cases h
    rw [World.recordAll_eq]
  | readBus | keepTable | share | acquire | send =>
    obtain ⟨_, _, heq⟩ := Option.map_eq_some_iff.mp h
    cases heq
    first | rfl | exact World.length_setBus ..
  | enrol | dismiss | borrow | join | joinTask | rest | await =>
    rw [run] at h
    split at h <;> cases h <;> first | rfl | exact World.length_setBus ..
  | _ =>
    cases h
    first | rfl | exact World.length_setBus ..

end Step

end PubSub
