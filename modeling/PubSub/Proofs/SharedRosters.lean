import Mathlib.Data.List.Nodup
import Mathlib.Logic.Function.Basic
import PubSub.Delivery

/-!
# Shared rosters

Threads share the roster of a bus under a lock that one writer can have, or any number of readers. A
look-up reads one type after another, and the other calls change one type after another. Yet every
call answers as if it had been made in one step, at the moment at which it got the lock.
-/
namespace PubSub

open Roster

/-- A call on a roster. -/
inductive RosterCall where
  | look (table : Table)
  | enrol (owner : SubscriberId) (added : List Subscription)
  | dismiss (owner : SubscriberId)

inductive RosterAnswer where
  | found (handlers : List Selection)
  | enrolled (isNew : Bool)
  | dismissed (removed : Option (List Subscription))

/-- How far a call has got. All but the first and the last have the lock. -/
inductive RosterStage where
  | ahead
  | looking (found : List Selection) (rest : Table)
  | adding (owner : SubscriberId) (added rest : List Subscription)
  | removing (removed rest : List Subscription)
  | answered (answer : RosterAnswer)

namespace RosterStage

def writes : RosterStage → Bool
  | .adding _ _ _ | .removing _ _ => true
  | _ => false

def reads : RosterStage → Bool
  | .looking _ _ => true
  | _ => false

/-- Goes on by one key. -/
def next (r : Roster) : RosterStage → Roster × RosterStage
  | .looking found (entry :: rest) =>
    (r, .looking (found ++ (r.on entry.1).map fun s => ⟨s, entry.2⟩) rest)
  | .looking found [] => (r, .answered (.found found))
  | .adding owner added (s :: rest) =>
    ({ r with byTopic := addByTopic r.byTopic s }, .adding owner added rest)
  | .adding owner added [] =>
    ({ r with byOwner := r.byOwner.insert owner added }, .answered (.enrolled true))
  | .removing removed (s :: rest) =>
    ({ r with byTopic := dropByTopic r.byTopic s }, .removing removed rest)
  | .removing removed [] => (r, .answered (.dismissed (some removed)))
  | stage => (r, stage)

end RosterStage

namespace RosterCall

/-- A look-up gets the lock while nobody writes, any other call while nobody else has it. -/
def Admits : RosterCall → RosterStage → Prop
  | .look _, other => other.writes = false
  | _, other => other.writes = false ∧ other.reads = false

/-- What a call does first when it has got the lock. -/
def start (r : Roster) : RosterCall → Roster × RosterStage
  | .look table => (r, .looking [] table)
  | .enrol owner added =>
    if r.contains owner then (r, .answered (.enrolled false)) else (r, .adding owner added added)
  | .dismiss owner =>
    match r.byOwner.get? owner with
    | none => (r, .answered (.dismissed none))
    | some removed => ({ r with byOwner := r.byOwner.erase owner }, .removing removed removed)

/-- The call made in one step. -/
def perform (r : Roster) : RosterCall → RosterAnswer × Roster
  | .look table => (.found (r.select table), r)
  | .enrol owner added =>
    match r.enrol owner added with
    | none => (.enrolled false, r)
    | some r => (.enrolled true, r)
  | .dismiss owner =>
    match r.dismiss owner with
    | none => (.dismissed none, r)
    | some (removed, r) => (.dismissed (some removed), r)

/-- Where a call has got that found the roster like the first one, now that it is like the second. -/
inductive At (r now : Roster) : RosterCall → RosterStage → Prop where
  | ahead {call : RosterCall} : At r now call .ahead
  | looking {table rest : Table} {found : List Selection}
      (same : found ++ now.select rest = r.select table) : At r now (.look table) (.looking found rest)
  | adding {owner : SubscriberId} {added rest : List Subscription} (absent : r.contains owner = false)
      (owners : now.byOwner = r.byOwner)
      (topics : rest.foldl addByTopic now.byTopic = added.foldl addByTopic r.byTopic) :
      At r now (.enrol owner added) (.adding owner added rest)
  | removing {owner : SubscriberId} {removed rest : List Subscription}
      (present : r.byOwner.get? owner = some removed) (owners : now.byOwner = r.byOwner.erase owner)
      (topics : rest.foldl dropByTopic now.byTopic = removed.foldl dropByTopic r.byTopic) :
      At r now (.dismiss owner) (.removing removed rest)
  | answered {call : RosterCall} {answer : RosterAnswer} (same : answer = (call.perform r).1) :
      At r now call (.answered answer)

/-- The state of a roster and a call that has the lock: either the call writes still, or the roster is
as the call leaves it. -/
structure IsUnderway (r now : Roster) (call : RosterCall) (stage : RosterStage) : Prop where
  place : At r now call stage
  begun : stage ≠ .ahead
  left : stage.writes = false → now = (call.perform r).2

theorem isUnderway_start (r : Roster) (call : RosterCall) :
    IsUnderway r (call.start r).1 call (call.start r).2 := by
  cases call with
  | look table => exact ⟨.looking rfl, nofun, fun _ => rfl⟩
  | enrol owner added =>
    rw [start]
    split
    · rename_i hpresent
      have hperform : perform r (.enrol owner added) = (.enrolled false, r) := by
        rw [perform, Roster.enrol, if_pos hpresent]
      exact ⟨.answered (by rw [hperform]), nofun, fun _ => by rw [hperform]⟩
    · rename_i habsent
      exact ⟨.adding (Bool.eq_false_iff.mpr habsent) rfl rfl, nofun, nofun⟩
  | dismiss owner =>
    rw [start]
    split
    · rename_i habsent
      have hperform : perform r (.dismiss owner) = (.dismissed none, r) := by
        rw [perform, Roster.dismiss, habsent]
        rfl
      exact ⟨.answered (by rw [hperform]), nofun, fun _ => by rw [hperform]⟩
    · rename_i hpresent
      exact ⟨.removing hpresent rfl rfl, nofun, nofun⟩

theorem At.answer_eq {r now : Roster} {call : RosterCall} {answer : RosterAnswer}
    (h : At r now call (.answered answer)) : answer = (call.perform r).1 := by
  cases h with
  | answered same => exact same

/-- A call that does not have the lock does not depend on the roster. -/
theorem At.of_idle {r now now' : Roster} {call : RosterCall} {stage : RosterStage}
    (h : At r now call stage) (hwrites : stage.writes = false) (hreads : stage.reads = false) :
    At r now' call stage := by
  cases h with
  | ahead => exact .ahead
  | answered same => exact .answered same
  | looking => cases hreads
  | adding => cases hwrites
  | removing => cases hwrites

/-- A reader goes on and leaves the roster as it is. -/
theorem At.next_of_reads {r now : Roster} {call : RosterCall} {stage : RosterStage}
    (h : At r now call stage) (hreads : stage.reads = true) :
    (stage.next now).1 = now ∧ At r now call (stage.next now).2 := by
  cases h with
  | @looking table rest found same =>
    cases rest with
    | nil =>
      have hfound : found = r.select table := (List.append_nil found).symm.trans same
      exact ⟨rfl, .answered (hfound ▸ rfl)⟩
    | cons entry rest => exact ⟨rfl, .looking ((List.append_assoc ..).trans same)⟩
  | _ => cases hreads

/-- A writer goes on, and when it has come to its end the roster is as it leaves it. -/
theorem At.next_of_writes {r now : Roster} {call : RosterCall} {stage : RosterStage}
    (h : At r now call stage) (hwrites : stage.writes = true) :
    IsUnderway r (stage.next now).1 call (stage.next now).2 := by
  cases h with
  | @adding owner added rest absent owners topics =>
    cases rest with
    | nil =>
      have hperform : perform r (.enrol owner added) =
          (.enrolled true, { now with byOwner := now.byOwner.insert owner added }) := by
        rw [perform, Roster.enrol, absent, ← topics, owners]
        rfl
      exact ⟨.answered (by rw [hperform]), nofun, fun _ => by rw [hperform]; rfl⟩
    | cons s rest => exact ⟨.adding absent owners topics, nofun, nofun⟩
  | @removing owner removed rest present owners topics =>
    cases rest with
    | nil =>
      have hperform : perform r (.dismiss owner) = (.dismissed (some removed), now) := by
        rw [perform, Roster.dismiss, present, Option.map_some, ← topics, ← owners]
        rfl
      exact ⟨.answered (by rw [hperform]), nofun, fun _ => by rw [hperform]; rfl⟩
    | cons s rest => exact ⟨.removing present owners topics, nofun, nofun⟩
  | _ => cases hwrites

end RosterCall

/-- A roster that is shared by the calls of all threads. -/
structure SharedRoster where
  roster : Roster
  stage : Nat → RosterStage

namespace SharedRoster

def put (k : Nat) (change : Roster × RosterStage) (x : SharedRoster) : SharedRoster :=
  ⟨change.1, Function.update x.stage k change.2⟩

/-- Where these calls can get in any order of their steps, with those that have had the lock in the
order in which they got it. -/
inductive Reached (call : Nat → RosterCall) (r : Roster) : List Nat → SharedRoster → Prop where
  | start : Reached call r [] ⟨r, fun _ => .ahead⟩
  | begin {order : List Nat} {x : SharedRoster} {k : Nat} (before : Reached call r order x)
      (ahead : x.stage k = .ahead) (admitted : ∀ j, (call k).Admits (x.stage j)) :
      Reached call r (order ++ [k]) (x.put k ((call k).start x.roster))
  | next {order : List Nat} {x : SharedRoster} (k : Nat) (before : Reached call r order x) :
      Reached call r order (x.put k ((x.stage k).next x.roster))

/-- The roster after these calls, each made in one step. -/
def whole (call : Nat → RosterCall) (r : Roster) (order : List Nat) : Roster :=
  order.foldl (fun r k => ((call k).perform r).2) r

variable {call : Nat → RosterCall} {r : Roster} {order : List Nat} {x : SharedRoster} {k : Nat}

theorem whole_concat : whole call r (order ++ [k]) = ((call k).perform (whole call r order)).2 := by
  rw [whole, List.foldl_append]
  rfl

/-- The calls that have had the lock are where they would be if each had been made in one step. -/
structure Serial (call : Nat → RosterCall) (r : Roster) (order : List Nat) (x : SharedRoster) : Prop where
  begun : ∀ k, k ∈ order ↔ x.stage k ≠ .ahead
  nodup : order.Nodup
  place : ∀ k ∈ order, ∃ earlier later, order = earlier ++ k :: later ∧
    (call k).At (whole call r earlier) x.roster (x.stage k)
  free : (∀ k, (x.stage k).writes = false) → x.roster = whole call r order
  /-- Nobody else has the lock, or has had it since. -/
  writer : ∀ k, (x.stage k).writes = true → (∃ earlier, order = earlier ++ [k]) ∧
    ∀ j, j ≠ k → (x.stage j).writes = false ∧ (x.stage j).reads = false

theorem serial_start : Serial call r [] ⟨r, fun _ => .ahead⟩ :=
  ⟨fun _ => ⟨nofun, fun h => absurd rfl h⟩, List.nodup_nil, nofun, fun _ => rfl, nofun⟩

theorem stage_put (k j : Nat) (change : Roster × RosterStage) (x : SharedRoster) :
    (x.put k change).stage j = if j = k then change.2 else x.stage j := Function.update_apply ..

theorem stage_put_self (k : Nat) (change : Roster × RosterStage) (x : SharedRoster) :
    (x.put k change).stage k = change.2 := Function.update_self ..

theorem stage_put_of_ne {k j : Nat} (h : j ≠ k) (change : Roster × RosterStage) (x : SharedRoster) :
    (x.put k change).stage j = x.stage j := Function.update_of_ne h ..

theorem Serial.begin (h : Serial call r order x) (hahead : x.stage k = .ahead)
    (hadmitted : ∀ j, (call k).Admits (x.stage j)) :
    Serial call r (order ++ [k]) (x.put k ((call k).start x.roster)) := by
  have hunwritten : ∀ j, (x.stage j).writes = false := fun j => by
    have hadmits := hadmitted j
    unfold RosterCall.Admits at hadmits
    split at hadmits
    · exact hadmits
    · exact hadmits.1
  have hroster := h.free hunwritten
  have hunder := RosterCall.isUnderway_start x.roster (call k)
  have hnew : k ∉ order := fun hmem => (h.begun k).mp hmem hahead
  -- a call that changes the roster when it gets the lock has it for itself
  have hothers : ∀ j, ((call k).start x.roster).1 = x.roster ∧
    ((call k).start x.roster).2.writes = false ∨
      (x.stage j).reads = false := fun j => by
    have hadmits := hadmitted j
    cases hcall : call k with
    | look table => exact .inl ⟨rfl, rfl⟩
    | enrol | dismiss =>
      rw [hcall] at hadmits
      exact .inr hadmits.2
  refine ⟨fun j => ?_, ?_, fun j hj => ?_, fun hfree => ?_, fun j hwrites => ?_⟩
  · rw [List.mem_append, List.mem_singleton, h.begun]
    by_cases hj : j = k
    · subst hj
      rw [stage_put_self]
      exact iff_of_true (.inr rfl) hunder.begun
    · rw [stage_put_of_ne hj, or_iff_left hj]
  · exact List.nodup_append.mpr ⟨h.nodup, List.nodup_singleton k, fun a ha b hb => by
      rintro rfl
      exact hnew (List.mem_singleton.mp hb ▸ ha)⟩
  · rcases List.mem_append.mp hj with hj | hj
    · obtain ⟨earlier, later, horder, hplace⟩ := h.place j hj
      have hne : j ≠ k := fun heq => hnew (heq ▸ hj)
      refine ⟨earlier, later ++ [k], by rw [horder, List.append_assoc]; rfl, ?_⟩
      rw [stage_put_of_ne hne]
      rcases hothers j with ⟨hsame, -⟩ | hreads
      · rw [put, hsame]
        exact hplace
      · exact hplace.of_idle (hunwritten j) hreads
    · obtain rfl := List.mem_singleton.mp hj
      refine ⟨order, [], rfl, ?_⟩
      rw [stage_put_self, ← hroster]
      exact hunder.place
  · have hdone := hfree k
    rw [stage_put_self] at hdone
    rw [whole_concat, ← hroster]
    exact hunder.left hdone
  · by_cases hj : j = k
    · subst hj
      refine ⟨⟨order, rfl⟩, fun i hi => ?_⟩
      rw [stage_put_self] at hwrites
      rw [stage_put_of_ne hi]
      refine ⟨hunwritten i, (hothers i).resolve_left fun hnone => ?_⟩
      rw [hnone.2] at hwrites
      cases hwrites
    · rw [stage_put_of_ne hj, hunwritten] at hwrites
      cases hwrites

/-- A call that does not have the lock does nothing. -/
theorem next_of_idle {stage : RosterStage} (roster : Roster) (hwrites : stage.writes = false)
    (hreads : stage.reads = false) : stage.next roster = (roster, stage) := by
  cases stage with
  | ahead => rfl
  | answered => rfl
  | looking => cases hreads
  | adding => cases hwrites
  | removing => cases hwrites

/-- Nothing comes after the call that got the lock last. -/
theorem eq_nil_of_concat {earlier earlier' later : List Nat} (hnodup : order.Nodup)
    (h : order = earlier ++ k :: later) (h' : order = earlier' ++ [k]) : later = [] := by
  rcases List.eq_nil_or_concat' later with rfl | ⟨rest, j, rfl⟩
  · rfl
  · have hlast : k = j := by
      have heq : earlier' ++ [k] = (earlier ++ k :: rest) ++ [j] := by
        rw [← h', h, List.append_assoc]
        rfl
      exact List.singleton_inj.mp (List.append_inj_right' heq rfl)
    subst hlast
    rw [h] at hnodup
    exact absurd (List.mem_append_right rest (List.mem_singleton_self k))
      (List.nodup_cons.mp hnodup.of_append_right).1

theorem Serial.next_of_writes (h : Serial call r order x) (hwrites : (x.stage k).writes = true) :
    Serial call r order (x.put k ((x.stage k).next x.roster)) := by
  obtain ⟨⟨earlier, horder⟩, hothers⟩ := h.writer k hwrites
  have hmem : k ∈ order := horder ▸ List.mem_append_right _ (List.mem_singleton_self k)
  obtain ⟨earlier, later, hplace, hat⟩ := h.place k hmem
  obtain rfl := eq_nil_of_concat h.nodup hplace horder
  have hunder := hat.next_of_writes hwrites
  refine ⟨fun j => ?_, h.nodup, fun j hj => ?_, fun hfree => ?_, fun j hj => ?_⟩
  · by_cases hj : j = k
    · subst hj
      rw [stage_put_self]
      exact iff_of_true hmem hunder.begun
    · rw [stage_put_of_ne hj, h.begun]
  · by_cases heq : j = k
    · subst heq
      rw [stage_put_self]
      exact ⟨earlier, [], hplace, hunder.place⟩
    · obtain ⟨before, after, hsplit, hplace⟩ := h.place j hj
      rw [stage_put_of_ne heq]
      exact ⟨before, after, hsplit, hplace.of_idle (hothers j heq).1 (hothers j heq).2⟩
  · have hdone := hfree k
    rw [stage_put_self] at hdone
    rw [hplace, whole_concat]
    exact hunder.left hdone
  · by_cases heq : j = k
    · subst heq
      exact ⟨⟨earlier, hplace⟩, fun i hi => by rw [stage_put_of_ne hi]; exact hothers i hi⟩
    · rw [stage_put_of_ne heq, (hothers j heq).1] at hj
      cases hj

theorem Serial.next_of_reads (h : Serial call r order x) (hreads : (x.stage k).reads = true) :
    Serial call r order (x.put k ((x.stage k).next x.roster)) := by
  have hmem : k ∈ order := (h.begun k).mpr fun hahead => by
    rw [hahead] at hreads
    cases hreads
  have hunwritten : ∀ j, (x.stage j).writes = false := fun j => by
    rw [Bool.eq_false_iff]
    intro hwrites
    by_cases hj : k = j
    · subst hj
      revert hreads hwrites
      cases x.stage k <;> nofun
    · rw [((h.writer j hwrites).2 k hj).2] at hreads
      cases hreads
  obtain ⟨earlier, later, hplace, hat⟩ := h.place k hmem
  obtain ⟨hsame, hat'⟩ := hat.next_of_reads hreads
  have hstill : ((x.stage k).next x.roster).2.writes = false ∧
      ((x.stage k).next x.roster).2 ≠ .ahead := by
    revert hreads
    cases x.stage k with
    | looking found rest => cases rest <;> exact fun _ => ⟨rfl, nofun⟩
    | _ => nofun
  have hall : ∀ j, ((x.put k ((x.stage k).next x.roster)).stage j).writes = false := fun j => by
    rw [stage_put]
    split
    · exact hstill.1
    · exact hunwritten j
  refine ⟨fun j => ?_, h.nodup, fun j hj => ?_, fun _ => ?_, fun j hj => ?_⟩
  · by_cases hj : j = k
    · subst hj
      rw [stage_put_self]
      exact iff_of_true hmem hstill.2
    · rw [stage_put_of_ne hj, h.begun]
  · by_cases heq : j = k
    · subst heq
      rw [stage_put_self, put, hsame]
      exact ⟨earlier, later, hplace, hat'⟩
    · rw [stage_put_of_ne heq, put, hsame]
      exact h.place j hj
  · exact hsame.trans (h.free hunwritten)
  · rw [hall] at hj
    cases hj

theorem Serial.next (h : Serial call r order x) (k : Nat) :
    Serial call r order (x.put k ((x.stage k).next x.roster)) := by
  cases hwrites : (x.stage k).writes with
  | true => exact h.next_of_writes hwrites
  | false =>
    cases hreads : (x.stage k).reads with
    | true => exact h.next_of_reads hreads
    | false =>
      rw [next_of_idle _ hwrites hreads, put, Function.update_eq_self]
      exact h

theorem Reached.serial (h : Reached call r order x) : Serial call r order x := by
  induction h with
  | start => exact serial_start
  | begin _ ahead admitted ih => exact ih.begin ahead admitted
  | next k _ ih => exact ih.next k

/-- In whatever order the calls take their steps, each answers what it would have answered if those that
got the lock before it had been over, and the roster comes to what all of them together make of it. -/
structure Agrees (call : Nat → RosterCall) (r : Roster) (order : List Nat) (x : SharedRoster) : Prop where
  once : order.Nodup
  answers : ∀ k answer, x.stage k = .answered answer →
    ∃ earlier later, order = earlier ++ k :: later ∧
      answer = ((call k).perform (whole call r earlier)).1
  roster : (∀ k, (x.stage k).writes = false) → x.roster = whole call r order

theorem Reached.agrees (h : Reached call r order x) : Agrees call r order x := by
  refine ⟨h.serial.nodup, fun k answer hanswer => ?_, h.serial.free⟩
  have hmem : k ∈ order := (h.serial.begun k).mpr (by rw [hanswer]; exact nofun)
  obtain ⟨earlier, later, horder, hplace⟩ := h.serial.place k hmem
  exact ⟨earlier, later, horder, RosterCall.At.answer_eq (hanswer ▸ hplace)⟩

end SharedRoster

end PubSub
