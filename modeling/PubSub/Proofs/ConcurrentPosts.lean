import PubSub.Proofs.DeterminedPosts
import PubSub.Proofs.Run
import Mathlib.Logic.Hydra

/-!
# Posts on several threads

Posts to one bus, each on a thread of its own, in any order of turns. They share the tables, the locks
and the memory. Each goes the way that is known beforehand, so it does not matter to a post what the
others do, and since a thread that has a lock never waits for another, some thread can always go on.
-/
namespace PubSub

open Program

variable {μ α : Type}

/-- Every lock that is held is the one lock of its thread, which has acquired it once. -/
def Locks.Accords (held : Thread → Option LockId) (l : Locks) : Prop :=
  ∀ id t, (l.lock id).holder = some t → held t = some id ∧ (l.lock id).depth ≤ 1

namespace Locks

variable {l l' : Locks} {held : Thread → Option LockId} {t : Thread} {id : LockId}

theorem Accords.set (h : l.Accords held) (id : LockId) {x : Lock}
    (hx : ∀ t, x.holder = some t → held t = some id ∧ x.depth ≤ 1) : (l.set id x).Accords held := by
  intro id' t
  rw [lock_set]
  split
  · rename_i heq
    exact heq ▸ hx t
  · exact h id' t

theorem Accords.share (h : l.Accords held) (handler : HandlerKey) : (l.share handler).2.Accords held := by
  rw [Locks.share]
  split
  · exact h.set _ (h _)
  · refine h.set _ fun t hholder => ?_
    cases hholder

theorem Accords.unshare (h : l.Accords held) (id : LockId) : (l.unshare id).Accords held :=
  h.set id (h id)

theorem Accords.discard (h : l.Accords held) (handler : HandlerKey) :
    (l.discard handler).Accords held := by
  unfold Locks.discard
  split
  · split <;> exact h
  · exact h

/-- The lock of another thread stays its lock when this thread has another. -/
theorem Accords.update (h : l.Accords held) {lock? : Option LockId}
    (hnot : ∀ id, (l.lock id).holder ≠ some t) : l.Accords (Function.update held t lock?) := by
  intro id t' hholder
  have hne : t' ≠ t := fun heq => hnot id (heq ▸ hholder)
  rw [Function.update_of_ne hne]
  exact h id t' hholder

theorem Accords.acquire (h : l.Accords held) (hnone : held t = none)
    (hacquire : l.acquire id t = some l') :
    l'.Accords (Function.update held t (some id)) := by
  have hnot : ∀ id, (l.lock id).holder ≠ some t := by
    intro id' hholder
    have hheld := (h id' t hholder).1
    rw [hnone] at hheld
    cases hheld
  unfold Locks.acquire at hacquire
  cases hholder : (l.lock id).holder with
  | none =>
    simp only [hholder] at hacquire
    cases hacquire
    refine (h.update hnot).set id fun t' ht' => ?_
    obtain rfl := Option.some.inj ht'
    exact ⟨Function.update_self .., Nat.le_refl 1⟩
  | some t' =>
    simp only [hholder] at hacquire
    split at hacquire
    · rename_i heq
      exact absurd (heq ▸ hholder) (hnot id)
    · cases hacquire

/-- A thread has no lock after it has given back its lock. -/
theorem Accords.release (h : l.Accords held) (hheld : held t = some id) :
    (l.release id).Accords (Function.update held t none) := by
  have hfree : ∀ t', ((l.release id).lock id).holder ≠ some t' := by
    intro t'
    rw [Locks.release]
    split
    · rw [lock_set, if_pos rfl]
      intro hholder
      cases hholder
    · rename_i hdepth
      rw [lock_set, if_pos rfl]
      exact fun hholder => hdepth (h id t' hholder).2
  have hsame : ∀ id', id' ≠ id → (l.release id).lock id' = l.lock id' := by
    intro id' hne
    rw [Locks.release]
    split <;> rw [lock_set, if_neg hne]
  intro id' t' hholder
  have hne : id' ≠ id := fun heq => hfree t' (heq ▸ hholder)
  rw [hsame id' hne] at hholder ⊢
  have hother := h id' t' hholder
  have hne' : t' ≠ t := by
    rintro rfl
    exact hne (Option.some.inj (hother.1.symm.trans hheld))
  rwa [Function.update_of_ne hne']

end Locks

/-- The bus is open and as the posts expect it, and so are the declarations in force. -/
structure Premises.Holds (F : Premises) (w : World μ) : Prop where
  isOpen : F.bus < w.buses.length
  describes : F.Describes (w.bus F.bus)
  declarations : w.declarations = F.declarations

/-- What the posts to a bus rely on when they begin. -/
def World.premises (w : World μ) (b : BusId) : Premises where
  bus := b
  settings := (w.bus b).settings
  roster := (w.bus b).roster
  declarations := w.declarations
  table type := ((w.bus b).tables.get? type).getD (w.declarations.table type)

theorem World.holds_premises {w : World μ} {b : BusId} (hb : b < w.buses.length)
    (hpublisher : (w.bus b).discipline = .publisher) : (w.premises b).Holds w :=
  ⟨hb, ⟨rfl, hpublisher, rfl, fun _ => rfl⟩, rfl⟩

namespace Premises

variable {F : Premises} {t : Thread} {s : Step μ} {reply : s.Reply} {held held' : Option LockId}
  {lines : List Occurrence} {w w' : World μ}

/-- Whoever keeps the table that is meant for a type finds it kept. -/
theorem Describes.keepTable {bus : Bus} (h : F.Describes bus) (type : EventType) :
    (bus.keepTable type (F.table type)).1 = F.table type ∧
      F.Describes (bus.keepTable type (F.table type)).2 := by
  have htable := h.tables type
  unfold Bus.keepTable
  cases hfound : bus.tables.get? type with
  | some kept =>
    rw [hfound] at htable
    exact ⟨htable, h⟩
  | none =>
    refine ⟨rfl, h.settings, h.discipline, h.roster, fun type' => ?_⟩
    rw [Keyed.get?_insert]
    split
    · rename_i heq
      exact heq ▸ rfl
    · exact h.tables type'

theorem Holds.trusts (hw : F.Holds w) (h : F.Allows t s held held' lines)
    (hrun : s.run w = some (reply, w')) : F.Trusts s reply := by
  cases h with
  | readBus =>
    rw [Step.run, World.getElem?_buses hw.isOpen] at hrun
    cases hrun
    exact hw.describes
  | computeTable type =>
    cases hrun
    exact congrArg (·.table type) hw.declarations
  | keepTable type =>
    rw [Step.run, World.getElem?_buses hw.isOpen] at hrun
    cases hrun
    exact (hw.describes.keepTable type).1
  | _ => trivial

/-- The bus is changed, but not in what the posts rely on. -/
theorem Holds.setBus (hw : F.Holds w) {bus : Bus} (hbus : F.Describes bus) :
    F.Holds (w.setBus F.bus bus) :=
  ⟨(w.length_setBus ..).symm ▸ hw.isOpen, (w.bus_setBus F.bus bus hw.isOpen).symm ▸ hbus, hw.declarations⟩

theorem Holds.setLocks (hw : F.Holds w) (locks : Locks) : F.Holds (w.setLocks F.bus locks) :=
  hw.setBus { hw.describes with }

theorem Holds.run (hw : F.Holds w) (h : F.Allows t s held held' lines)
    (hrun : s.run w = some (reply, w')) : F.Holds w' := by
  cases h with
  | readBus =>
    obtain ⟨bus, -, heq⟩ := Option.map_eq_some_iff.mp hrun
    cases heq
    exact hw
  | computeTable type =>
    cases hrun
    rw [World.recordAll_eq]
    exact { hw with }
  | keepTable type =>
    rw [Step.run, World.getElem?_buses hw.isOpen] at hrun
    cases hrun
    exact hw.setBus (hw.describes.keepTable type).2
  | share handler =>
    rw [Step.run, World.getElem?_buses hw.isOpen] at hrun
    cases hrun
    exact hw.setLocks _
  | acquire lock =>
    obtain ⟨locks, -, heq⟩ := Option.map_eq_some_iff.mp hrun
    cases heq
    exact hw.setLocks locks
  | release lock | unshare lock | discard handler =>
    cases hrun
    exact hw.setLocks _
  | record o | serial | memory change | time =>
    cases hrun
    exact { hw with }
  | await condition deadline =>
    obtain ⟨-, heq⟩ := Option.ite_none_right_eq_some.mp hrun
    cases heq
    exact hw

/-- The thread writes what the rules say, and nobody else writes. -/
theorem Allows.written (h : F.Allows t s held held' lines) (hrun : s.run w = some (reply, w'))
    (t' : Thread) : w'.written t' = w.written t' ++ if t = t' then lines else [] := by
  have hsilent : w'.history = w.history → w'.written t' = w.written t' ++ if t = t' then [] else [] := by
    intro hsame
    rw [World.written_of_history hsame, ite_self, List.append_nil]
  cases h with
  | record o =>
    cases hrun
    exact World.written_record w t' t o
  | computeTable type =>
    cases hrun
    rw [World.written_recordAll, ite_self, List.append_nil]
    intro o ho
    obtain ⟨_, -, rfl⟩ := List.mem_map.mp ho
    rfl
  | readBus | keepTable type | share handler | acquire lock =>
    obtain ⟨_, -, heq⟩ := Option.map_eq_some_iff.mp hrun
    cases heq
    exact hsilent rfl
  | release lock | unshare lock | discard handler | serial | memory change | time =>
    cases hrun
    exact hsilent rfl
  | await condition deadline =>
    obtain ⟨-, heq⟩ := Option.ite_none_right_eq_some.mp hrun
    cases heq
    exact hsilent rfl

/-- What is known of the locks after a step of a thread. -/
theorem Allows.accords {locks : Thread → Option LockId} (h : F.Allows t s held held' lines)
    (hw : F.Holds w) (hrun : s.run w = some (reply, w')) (hlocks : (w.bus F.bus).locks.Accords locks)
    (hheld : locks t = held) : (w'.bus F.bus).locks.Accords (Function.update locks t held') := by
  have hset : ∀ {l : Locks} {locks' : Thread → Option LockId}, l.Accords locks' →
      ((w.setLocks F.bus l).bus F.bus).locks.Accords locks' := by
    intro l locks' hl
    rw [World.setLocks, w.bus_setBus F.bus _ hw.isOpen]
    exact hl
  have hsame : Function.update locks t held = locks := by
    rw [← hheld, Function.update_eq_self]
  have heffect := Step.run_effect hrun
  cases h with
  | acquire lock =>
    obtain ⟨l, hacquire, heq⟩ := Option.map_eq_some_iff.mp hrun
    cases heq
    exact hset (hlocks.acquire hheld hacquire)
  | release lock =>
    cases hrun
    exact hset (hlocks.release hheld)
  | share handler =>
    rw [Step.run, World.getElem?_buses hw.isOpen] at hrun
    cases hrun
    exact hset (hsame.symm ▸ hlocks.share handler)
  | unshare lock =>
    cases hrun
    exact hset (hsame.symm ▸ hlocks.unshare lock)
  | discard handler =>
    cases hrun
    exact hset (hsame.symm ▸ hlocks.discard handler)
  | _ =>
    rw [hsame, heffect.locks rfl]
    exact hlocks

/-- A thread waits only for the time to pass, or for a lock of another thread while it has none. -/
theorem Allows.possible (h : F.Allows t s held held' lines) (hw : F.Holds w) :
    (∃ milliseconds, s.possible { w with time := w.time + milliseconds } = true) ∨
    held = none ∧ ∃ lock t', ((w.bus F.bus).locks.lock lock).holder = some t' ∧ t' ≠ t := by
  have hopen : (w.buses[F.bus]?).isSome = true := by
    rw [World.getElem?_buses hw.isOpen]
    rfl
  cases h with
  | readBus | keepTable type | share handler => exact .inl ⟨0, hopen⟩
  | await condition deadline =>
    refine .inl ⟨deadline, Bool.or_eq_true_iff.mpr (.inr (decide_eq_true ?_))⟩
    exact Nat.le_add_left ..
  | acquire lock =>
    cases hholder : ((w.bus F.bus).locks.lock lock).holder with
    | none =>
      refine .inl ⟨0, ?_⟩
      change ((w.bus F.bus).locks.acquire lock t).isSome = true
      simp only [Locks.acquire, hholder, Option.isSome_some]
    | some t' =>
      by_cases heq : t' = t
      · refine .inl ⟨0, ?_⟩
        change ((w.bus F.bus).locks.acquire lock t).isSome = true
        simp only [Locks.acquire, hholder, heq, if_true, Option.isSome_some]
      · exact .inr ⟨rfl, lock, t', hholder, heq⟩
  | _ => exact .inl ⟨0, rfl⟩

end Premises

namespace Machine

/-- A caller takes a step, or time passes. -/
inductive CallersMove (β : Behaviour μ) (depth : Nat) (m m' : Machine μ α) : Prop where
  | caller (i : Nat) (moved : m.turn β depth (.caller i) = some m')
  | pass (milliseconds : Nat) (moved : m.turn β depth (.pass milliseconds) = some m')

/-- Every caller posts one event to the bus, on a thread of its own. -/
def posting (β : Behaviour μ) (depth : Nat) (w : World μ) (b : BusId) (posts : List (Thread × Event)) :
    Machine μ Outcome where
  world := w
  callers := posts.map fun (t, event) => post (β.client (β.perform (depth + 1) t)) t b event
  tasks := .empty
  workers := .empty

theorem moves_of_play {β : Behaviour μ} {depth : Nat} {m m' : Machine μ α} {callers : List Nat}
    {trace : Trace μ} (h : m.play β depth (callers.map .caller) = some (trace, m')) :
    Relation.ReflTransGen (CallersMove β depth) m m' := by
  induction callers generalizing m trace with
  | nil =>
    cases h
    exact .refl
  | cons i callers ih =>
    rw [List.map_cons, play] at h
    split at h
    · cases h
    · rename_i m₁ hmoved
      obtain ⟨⟨later, last⟩, hrest, heq⟩ := Option.map_eq_some_iff.mp h
      cases heq
      exact .head (.caller i hmoved) (ih hrest)

/-- All posts have ended. -/
def HasEnded (m : Machine μ Outcome) : Prop := ∀ p ∈ m.callers, ∃ outcome, p = .done outcome

/-- A thread that may take a step takes it. -/
theorem exists_turns (β : Behaviour μ) (depth : Nat) {m : Machine μ Outcome} {i : Nat} {s : Step μ}
    {next : s.Reply → Proc μ Outcome} {milliseconds : Nat}
    (hcaller : m.callers[i]? = some (.step s next))
    (hpossible : s.possible { m.world with time := m.world.time + milliseconds } = true) :
    ∃ m₁ m₂ reply, m.turn β depth (.pass milliseconds) = some m₁ ∧
      m₁.turn β depth (.caller i) = some m₂ ∧ m₂.callers = m.callers.set i (next reply) := by
  rw [Step.possible_eq_isSome] at hpossible
  obtain ⟨⟨reply, w⟩, hrun⟩ := Option.isSome_iff_exists.mp hpossible
  refine ⟨_, { m with world := w, callers := m.callers.set i (next reply) }, reply, rfl, ?_, rfl⟩
  rw [turn, hcaller]
  exact congrArg (Option.map _) (congrArg (Option.map _) hrun)

/-- Where posts are that began in a world: each has written the first part of what it writes in all. -/
structure Proceeds (F : Premises) (start : World μ) (threads : List Thread)
    (fate : Nat → List Occurrence × Outcome) (locks : Thread → Option LockId)
    (m : Machine μ Outcome) : Prop where
  world : F.Holds m.world
  length : m.callers.length = threads.length
  callers : ∀ (i : Nat) t (p : Proc μ Outcome), threads[i]? = some t → m.callers[i]? = some p → ∃ later,
    p.Determines F t (· = (fate i).2) (locks t) none later ∧
      start.written t ++ (fate i).1 = m.world.written t ++ later
  accords : (m.world.bus F.bus).locks.Accords locks
  held : ∀ t lock, locks t = some lock → t ∈ threads

namespace Proceeds

variable {F : Premises} {start : World μ} {threads : List Thread} {β : Behaviour μ} {depth : Nat}
  {fate : Nat → List Occurrence × Outcome} {locks : Thread → Option LockId} {m m' : Machine μ Outcome}

/-- Each move keeps the posts on their way. -/
theorem of_move (h : m.Proceeds F start threads fate locks) (hthreads : threads.Nodup)
    (hmove : m.CallersMove β depth m') : ∃ locks', m'.Proceeds F start threads fate locks' := by
  cases hmove with
  | pass milliseconds moved =>
    cases moved
    exact ⟨locks, { h.world with }, h.length, h.callers, h.accords, h.held⟩
  | caller i hmoved =>
    rw [turn] at hmoved
    cases hcaller : m.callers[i]? with
    | none =>
      rw [hcaller] at hmoved
      cases hmoved
    | some p =>
      rw [hcaller] at hmoved
      obtain ⟨⟨p', w'⟩, hadvance, rfl⟩ := Option.map_eq_some_iff.mp hmoved
      obtain ⟨s, next, reply, rfl, hrun, rfl⟩ := advance_eq_some hadvance
      have hi : i < m.callers.length := (List.getElem?_eq_some_iff.mp hcaller).1
      obtain ⟨t, ht⟩ : ∃ t, threads[i]? = some t :=
        ⟨_, List.getElem?_eq_getElem (h.length ▸ hi)⟩
      obtain ⟨later, hdetermines, hlater⟩ := h.callers i t _ ht hcaller
      obtain ⟨held, now, later, hallows, rfl, hrest⟩ := hdetermines.exists_step
      have hwritten := hallows.written hrun
      refine ⟨Function.update locks t held, h.world.run hallows hrun, ?_, ?_, ?_, ?_⟩
      · exact (List.length_set ..).trans h.length
      · intro j t' p ht' hp
        by_cases hij : i = j
        · subst hij
          obtain rfl := Option.some.inj (ht.symm.trans ht')
          rw [List.getElem?_set_self hi] at hp
          obtain rfl := Option.some.inj hp
          rw [Function.update_self, hwritten, if_pos rfl]
          exact ⟨later, hrest reply (h.world.trusts hallows hrun),
            hlater.trans (List.append_assoc ..).symm⟩
        · have hne : t ≠ t' := fun heq =>
            hij ((List.getElem?_inj (h.length ▸ hi) hthreads).mp (ht.trans (heq ▸ ht'.symm)))
          rw [List.getElem?_set_ne hij] at hp
          rw [Function.update_of_ne (Ne.symm hne), hwritten, if_neg hne, List.append_nil]
          exact h.callers j t' p ht' hp
      · exact hallows.accords h.world hrun h.accords rfl
      · intro t' lock hlock
        by_cases hne : t' = t
        · exact hne ▸ List.mem_of_getElem? ht
        · rw [Function.update_of_ne hne] at hlock
          exact h.held t' lock hlock

theorem of_moves (h : m.Proceeds F start threads fate locks) (hthreads : threads.Nodup)
    (hmoves : Relation.ReflTransGen (CallersMove β depth) m m') :
    ∃ locks', m'.Proceeds F start threads fate locks' := by
  induction hmoves with
  | refl => exact ⟨locks, h⟩
  | tail _ hmove ih =>
    obtain ⟨locks', h'⟩ := ih
    exact h'.of_move hthreads hmove

/-- A post that has ended has written everything and answers what was to be expected. -/
theorem of_done (h : m.Proceeds F start threads fate locks) {i : Nat} {t : Thread} {outcome : Outcome}
    (ht : threads[i]? = some t) (hdone : m.callers[i]? = some (.done outcome)) :
    outcome = (fate i).2 ∧ m.world.written t = start.written t ++ (fate i).1 := by
  obtain ⟨later, hdetermines, hlater⟩ := h.callers i t _ ht hdone
  obtain ⟨hanswer, -, rfl⟩ := hdetermines.of_done
  exact ⟨hanswer, (hlater.trans (List.append_nil _)).symm⟩

/-- A thread with a lock can go on, now or when time has passed. -/
theorem exists_possible_of_held (h : m.Proceeds F start threads fate locks) {t : Thread} {lock : LockId}
    (hlock : locks t = some lock) :
    ∃ (i : Nat) (s : Step μ) (next : s.Reply → Proc μ Outcome) (milliseconds : Nat),
      m.callers[i]? = some (.step s next) ∧
      s.possible { m.world with time := m.world.time + milliseconds } = true := by
  obtain ⟨i, hi, ht⟩ := List.getElem_of_mem (h.held t lock hlock)
  have hi' : i < m.callers.length := h.length.symm ▸ hi
  have hcaller := List.getElem?_eq_getElem hi'
  obtain ⟨later, hdetermines, -⟩ := h.callers i t _ (List.getElem?_eq_some_iff.mpr ⟨hi, ht⟩) hcaller
  rw [hlock] at hdetermines
  generalize m.callers[i] = p at hcaller hdetermines
  cases p with
  | done outcome => cases hdetermines.of_done.2.1
  | never => exact absurd hdetermines Proc.not_determines_never
  | step s next =>
    obtain ⟨held, now, later, hallows, -, -⟩ := hdetermines.exists_step
    rcases hallows.possible h.world with ⟨milliseconds, hpossible⟩ | ⟨hnone, -⟩
    · exact ⟨i, s, next, milliseconds, hcaller, hpossible⟩
    · cases hnone

/-- As long as a post has not ended, some thread can go on. -/
theorem exists_possible (h : m.Proceeds F start threads fate locks)
    (hunfinished : ¬ m.HasEnded) :
    ∃ (i : Nat) (s : Step μ) (next : s.Reply → Proc μ Outcome) (milliseconds : Nat),
      m.callers[i]? = some (.step s next) ∧
      s.possible { m.world with time := m.world.time + milliseconds } = true := by
  have hunfinished : ∃ p ∈ m.callers, ∀ outcome, p ≠ .done outcome := by
    simpa only [HasEnded, not_forall, not_exists, exists_prop] using hunfinished
  obtain ⟨p, hp, hnot⟩ := hunfinished
  obtain ⟨i, hi, rfl⟩ := List.getElem_of_mem hp
  have hcaller := List.getElem?_eq_getElem hi
  obtain ⟨later, hdetermines, -⟩ := h.callers i _ _ (List.getElem?_eq_getElem (h.length ▸ hi)) hcaller
  generalize m.callers[i] = p at hcaller hdetermines hnot
  cases p with
  | done outcome => exact absurd rfl (hnot outcome)
  | never => exact absurd hdetermines Proc.not_determines_never
  | step s next =>
    obtain ⟨held, now, later, hallows, -, -⟩ := hdetermines.exists_step
    rcases hallows.possible h.world with ⟨milliseconds, hpossible⟩ | ⟨-, lock, t', hholder, -⟩
    · exact ⟨i, s, next, milliseconds, hcaller, hpossible⟩
    · exact h.exists_possible_of_held (h.accords lock t' hholder).1

end Proceeds

end Machine

/-- What is left of a program after one step. -/
def Proc.Rest (p' p : Proc μ α) : Prop :=
  ∃ (s : Step μ) (next : s.Reply → Proc μ α) (reply : s.Reply), p = .step s next ∧ p' = next reply

theorem Proc.wellFounded_rest : WellFounded (Proc.Rest (μ := μ) (α := α)) := by
  refine ⟨fun p => ?_⟩
  induction p with
  | done a =>
    refine ⟨_, ?_⟩
    rintro _ ⟨_, _, _, ⟨⟩, -⟩
  | never =>
    refine ⟨_, ?_⟩
    rintro _ ⟨_, _, _, ⟨⟩, -⟩
  | step s next ih =>
    refine ⟨_, ?_⟩
    rintro _ ⟨_, _, reply, heq, rfl⟩
    cases heq
    exact ih reply

/-- One element of a list is replaced by what is left of it. -/
theorem cutExpand_set {r : α → α → Prop} {l : List α} {i : Nat} {x y : α} (hx : l[i]? = some x)
    (hr : r y x) : Relation.CutExpand r (l.set i y : Multiset α) (l : Multiset α) := by
  obtain ⟨hi, rfl⟩ := List.getElem?_eq_some_iff.mp hx
  have hsplit : l = l.take i ++ l[i] :: l.drop (i + 1) := by
    rw [← List.drop_eq_getElem_cons, List.take_append_drop]
  have hset : l.set i y = l.take i ++ y :: l.drop (i + 1) := by
    rw [List.set_eq_take_append_cons_drop, if_pos hi]
  have hcoe : ∀ x : α, (↑(l.take i ++ x :: l.drop (i + 1)) : Multiset α) =
      ↑(l.take i) + ({x} + ↑(l.drop (i + 1))) := fun x => rfl
  rw [hset, hcoe, congrArg (fun l : List α => (l : Multiset α)) hsplit, hcoe]
  exact (Relation.cutExpand_add_left _).mpr (Relation.cutExpand_single_add hr _)

namespace Machine

variable {F : Premises} {start : World μ} {threads : List Thread} {β : Behaviour μ} {depth : Nat}
  {fate : Nat → List Occurrence × Outcome} {locks : Thread → Option LockId} {m : Machine μ Outcome}

theorem Proceeds.exists_hasEnded (h : m.Proceeds F start threads fate locks) (hthreads : threads.Nodup) :
    ∃ m', Relation.ReflTransGen (CallersMove β depth) m m' ∧ m'.HasEnded := by
  induction hcallers : (m.callers : Multiset (Proc μ Outcome)) using
    Proc.wellFounded_rest.cutExpand.induction generalizing m locks with
  | _ callers ih =>
  by_cases hended : m.HasEnded
  · exact ⟨m, .refl, hended⟩
  obtain ⟨i, s, next, milliseconds, hcaller, hpossible⟩ := h.exists_possible hended
  obtain ⟨m₁, m₂, reply, hpass, hmoved, hset⟩ :=
    exists_turns β depth hcaller hpossible
  have hmoves : Relation.ReflTransGen (CallersMove β depth) m m₂ :=
    .tail (.single (.pass milliseconds hpass)) (.caller i hmoved)
  obtain ⟨locks', h'⟩ := h.of_moves hthreads hmoves
  have hless := cutExpand_set hcaller (r := Proc.Rest) ⟨s, next, reply, rfl, rfl⟩
  rw [← hset] at hless
  obtain ⟨m', hrest, hended'⟩ := ih _ (hcallers ▸ hless) h' rfl
  exact ⟨m', hmoves.trans hrest, hended'⟩

end Machine

/-- Everyone starts at the beginning. -/
theorem exists_proceeds {β : Behaviour μ} {react : CodeId → Object → Reaction} {w : World μ} {b : BusId}
    (hb : b < w.buses.length) (hpublisher : (w.bus b).discipline = .publisher)
    (hfree : (w.bus b).locks.IsFree) (hβ : β.Suits react (w.premises b)) (depth : Nat) :
    ∃ fate : Event → List Occurrence × Outcome, ∀ posts : List (Thread × Event),
      (Machine.posting β depth w b posts).Proceeds (w.premises b) w (posts.map Prod.fst)
        (fun i => posts[i]?.elim ([], .ok) fun x => fate x.2) fun _ => none := by
  choose lines outcome hpost using fun event =>
    Proc.exists_determines_post depth hβ event
  refine ⟨fun event => (lines event, outcome event), fun posts => ?_⟩
  refine ⟨w.holds_premises hb hpublisher, ?_, ?_, ?_, nofun⟩
  · rw [Machine.posting, List.length_map, List.length_map]
  · intro i t p ht hp
    rw [List.getElem?_map] at ht
    obtain ⟨⟨t, event⟩, hx, rfl⟩ := Option.map_eq_some_iff.mp ht
    rw [Machine.posting, List.getElem?_map, hx] at hp
    obtain rfl := Option.some.inj hp
    rw [hx]
    exact ⟨lines event, hpost event t, rfl⟩
  · intro id t hholder
    have hnone : (((w.bus b).locks.lock id).holder = none) := hfree id
    cases hnone.symm.trans hholder

/-- Synchronous posts to one bus, each on a thread of its own, with handlers that end in a way that their
objects determine, and handlers and observers that perform no operation on a bus. Whatever the order of
turns, as long as a post has not ended some thread can go on, now or when time has passed, and all posts
can come to their end. A post that has ended answers what it answers when it is made alone in the same
world, and its thread has written the same: the calls and the ends of handlers, the reports of failures,
and their order. -/
theorem concurrent_posts_do_not_interfere {β : Behaviour μ} {react : CodeId → Object → Reaction}
    {w : World μ} {b : BusId} {posts : List (Thread × Event)} {depth : Nat} {m : Machine μ Outcome}
    (hb : b < w.buses.length) (hpublisher : (w.bus b).discipline = .publisher)
    (hfree : (w.bus b).locks.IsFree) (hβ : β.Suits react (w.premises b))
    (hthreads : (posts.map Prod.fst).Nodup)
    (h : Relation.ReflTransGen (Machine.CallersMove β depth) (.posting β depth w b posts) m) :
    (¬ m.HasEnded → ∃ milliseconds i m₁ m₂, m.turn β depth (.pass milliseconds) = some m₁ ∧
      m₁.turn β depth (.caller i) = some m₂) ∧
    (∃ m', Relation.ReflTransGen (Machine.CallersMove β depth) m m' ∧ m'.HasEnded) ∧
    ∀ (i : Nat) t event outcome, posts[i]? = some (t, event) → m.callers[i]? = some (.done outcome) →
      (∃ m', Relation.ReflTransGen (Machine.CallersMove β depth) (.posting β depth w b [(t, event)]) m' ∧
        m'.HasEnded) ∧
      ∀ m', Relation.ReflTransGen (Machine.CallersMove β depth) (.posting β depth w b [(t, event)]) m' →
        m'.HasEnded → m'.callers = [.done outcome] ∧ m'.world.written t = m.world.written t := by
  obtain ⟨fate, hstart⟩ := exists_proceeds hb hpublisher hfree hβ depth
  obtain ⟨locks, hproceeds⟩ := (hstart posts).of_moves hthreads h
  refine ⟨fun hnot => ?_, hproceeds.exists_hasEnded hthreads, fun i t event outcome hpost hdone => ?_⟩
  · obtain ⟨i, s, next, milliseconds, hcaller, hpossible⟩ := hproceeds.exists_possible hnot
    obtain ⟨m₁, m₂, -, hpass, hmoved, -⟩ := Machine.exists_turns β depth hcaller hpossible
    exact ⟨milliseconds, i, m₁, m₂, hpass, hmoved⟩
  have halone := hstart [(t, event)]
  refine ⟨halone.exists_hasEnded (List.nodup_singleton t), fun m' hmoves hended => ?_⟩
  obtain ⟨locks', halone⟩ := halone.of_moves (List.nodup_singleton t) hmoves
  obtain ⟨p, hp⟩ := List.length_eq_one_iff.mp halone.length
  obtain ⟨outcome', rfl⟩ := hended p (hp ▸ List.mem_singleton_self p)
  have ht : (posts.map Prod.fst)[i]? = some t := by rw [List.getElem?_map, hpost, Option.map_some]
  obtain ⟨houtcome, hwritten⟩ := hproceeds.of_done ht hdone
  have hdone' : m'.callers[0]? = some (.done outcome') := by rw [hp, List.getElem?_cons_zero]
  obtain ⟨houtcome', hwritten'⟩ := halone.of_done rfl hdone'
  rw [hpost] at houtcome hwritten
  rw [hp, hwritten, houtcome, hwritten', houtcome']
  exact ⟨rfl, rfl⟩

/-- The second caller waits for the first lock of the first bus. -/
private def isKeptWaiting (m : Machine Nat Outcome) : Bool :=
  match (m.callers[1]? : Option (Proc Nat Outcome)) with
  | some (.step (.acquire 0 ⟨0⟩ (.started 1)) _) =>
    !(Step.acquire (μ := Nat) 0 ⟨0⟩ (.started 1)).possible m.world
  | _ => false

/-- The post of the second caller has ended in a panic, and its thread has written so much. -/
private def hasPanickedAfter (entries : Nat) (m : Machine Nat Outcome) : Bool :=
  match (m.callers[1]? : Option (Proc Nat Outcome)) with
  | some (.done (.panicked .other)) => (m.world.written (.started 1)).length = entries
  | _ => false

/-- Two threads post an event of the same type at the same time, to an exclusive handler that fails and to
one that panics. Both compute the table. The second waits for the lock of the first handler until the
first thread goes on. In the end both have done what either would have done alone. -/
theorem concurrent_posts_do_not_interfere_on_race :
    let tick : Event := ⟨⟨"Tick", "Tick", 0⟩, 0, ""⟩
    let crew : Subscriber := ⟨⟨"Crew", 0⟩, "crew",
      [⟨"fail", false, .one .root, ⟨0⟩⟩, ⟨"panic", true, .one .root, ⟨1⟩⟩]⟩
    let β : Behaviour Nat := {
      handle code _ := .step (.memory (· + 1)) fun _ => .done <| match code.serial with
        | 0 => .failed (.text "late")
        | _ => .panicked .other
      observe _ _ := .step (.memory (· + 1)) fun n => .done (if n % 2 = 0 then some .other else none)
      work _ := .done none }
    let bus : Bus := { Bus.fresh ⟨"front", .collect, [.custom "watch" "watch" ⟨0⟩]⟩ .publisher with
      roster := (Roster.empty.enrol crew.owner crew.subscriptions).getD .empty }
    let w : World Nat := { World.start 0 with buses := [bus] }
    let Reaches (posts : List (Thread × Event)) : Machine Nat Outcome → Prop :=
      Relation.ReflTransGen (Machine.CallersMove β 0) (.posting β 0 w 0 posts)
    (∃ m next, Reaches [(.started 0, tick), (.started 1, tick)] m ∧
      m.callers[1]? = some (.step (.acquire 0 ⟨0⟩ (.started 1)) next) ∧
      (Step.acquire (μ := Nat) 0 ⟨0⟩ (.started 1)).possible m.world = false ∧
      ∃ milliseconds i m₁ m₂, m.turn β 0 (.pass milliseconds) = some m₁ ∧
        m₁.turn β 0 (.caller i) = some m₂) ∧
    ∃ m, Reaches [(.started 0, tick), (.started 1, tick)] m ∧
      m.callers[1]? = some (.done (.panicked .other)) ∧ (m.world.written (.started 1)).length = 10 ∧
      ∀ m', Reaches [(.started 1, tick)] m' → m'.HasEnded →
        m'.callers = [.done (.panicked .other)] ∧
        m'.world.written (.started 1) = m.world.written (.started 1) := by
  intro tick crew β bus w Reaches
  have hβ : β.Suits (fun code _ => match code.serial with
      | 0 => .failed (.text "late")
      | _ => .panicked .other) (w.premises 0) := by
    refine ⟨fun _ _ _ _ => ⟨rfl, fun _ => rfl⟩, fun observer _ => ?_⟩
    cases observer with
    | log => trivial
    | custom label name body => exact fun _ => ⟨rfl, fun _ => trivial⟩
  have hopen : 0 < w.buses.length := by decide
  have hfree : (w.bus 0).locks.IsFree := fun _ => rfl
  have hthreads : ([(Thread.started 0, tick), (.started 1, tick)].map Prod.fst).Nodup := by decide
  let race : List Nat := [0, 1, 0, 1, 0, 1, 0, 1] ++ List.replicate 10 0 ++ List.replicate 6 1
  constructor
  · have hseen : ((Machine.posting β 0 w 0 [(.started 0, tick), (.started 1, tick)]).play β 0
        (race.map .caller)).any (fun run => isKeptWaiting run.2) = true := by
      decide +kernel
    obtain ⟨⟨trace, m⟩, hplay, hwaiting⟩ := (Option.any_eq_true _ _).mp hseen
    have hmoves := Machine.moves_of_play hplay
    rw [isKeptWaiting] at hwaiting
    split at hwaiting
    · rename_i next hnext
      have hprogress := (concurrent_posts_do_not_interfere hopen rfl hfree hβ hthreads hmoves).1
      have hunfinished : ¬ m.HasEnded := by
        intro hended
        obtain ⟨outcome, heq⟩ := hended _ (List.mem_of_getElem? hnext)
        cases heq
      exact ⟨m, next, hmoves, hnext, (Bool.not_eq_true_eq_eq_false _).mp hwaiting, hprogress hunfinished⟩
    · cases hwaiting
  · have hseen : ((Machine.posting β 0 w 0 [(.started 0, tick), (.started 1, tick)]).play β 0
        ((race ++ List.replicate 15 0 ++ List.replicate 19 1).map .caller)).any
        (fun run => hasPanickedAfter 10 run.2) = true := by
      decide +kernel
    obtain ⟨⟨trace, m⟩, hplay, hover⟩ := (Option.any_eq_true _ _).mp hseen
    have hmoves := Machine.moves_of_play hplay
    rw [hasPanickedAfter] at hover
    split at hover
    · rename_i hdone
      have hsame := (concurrent_posts_do_not_interfere hopen rfl hfree hβ hthreads hmoves).2.2
      exact ⟨m, hmoves, hdone, of_decide_eq_true hover, (hsame 1 _ _ _ rfl hdone).2⟩
    · cases hover

end PubSub
