import PubSub.Proofs.LockTable
import PubSub.Proofs.Run
import PubSub.Proofs.Records

/-!
# Locks on one thread

While one thread does everything, it gets every lock that it asks for, whatever invocations it is in. A
handler's lock is held as often as invocations of the handler are in progress, and an invocation gives
it back before anyone is told of its failure.
-/
namespace PubSub

open Program

variable {μ α γ : Type}

namespace Locks

/-- How often the lock of a handler is held. -/
def holds (l : Locks) (handler : HandlerKey) : Nat :=
  match l.entries.get? handler with
  | none => 0
  | some id => if (l.lock id).holder.isSome then (l.lock id).depth else 0

/-- No other thread holds a lock. -/
def IsSole (t : Thread) (l : Locks) : Prop := ∀ id t', (l.lock id).holder = some t' → t' = t

variable {l l' l'' : Locks} {t : Thread} {used held : LockId → Nat}

theorem isSole_empty (t : Thread) : empty.IsSole t := fun _ _ => nofun

theorem IsSole.set (h : l.IsSole t) (id : LockId) {x : Lock} (hx : ∀ t', x.holder = some t' → t' = t) :
    (l.set id x).IsSole t := by
  intro id'
  rw [lock_set]
  split
  · exact hx
  · exact h id'

theorem IsSole.share (h : l.IsSole t) (handler : HandlerKey) : (l.share handler).2.IsSole t := by
  rw [Locks.share]
  split
  · exact h.set _ (h _)
  · exact h.set _ nofun

theorem IsSole.release (h : l.IsSole t) (id : LockId) : (l.release id).IsSole t := by
  rw [Locks.release]
  split
  · exact h.set _ nofun
  · exact h.set _ (h id)

theorem IsSole.unshare (h : l.IsSole t) (id : LockId) : (l.unshare id).IsSole t := h.set id (h id)

theorem IsSole.prune (h : l.IsSole t) (registered : SubscriberId → Bool) :
    (l.prune registered).IsSole t := h

theorem IsSole.discard (h : l.IsSole t) (handler : HandlerKey) : (l.discard handler).IsSole t := by
  unfold Locks.discard
  split
  · split <;> exact h
  · exact h

/-- The thread gets any lock, also one that it holds. -/
theorem IsSole.exists_acquire (h : l.IsSole t) (id : LockId) :
    ∃ l', l.acquire id t = some l' ∧ l'.IsSole t := by
  cases hholder : (l.lock id).holder with
  | none =>
    refine ⟨l.set id { l.lock id with holder := some t, depth := 1 }, ?_, h.set _ fun t' ht' => ?_⟩
    · simp only [Locks.acquire, hholder]
    · exact (Option.some.inj ht').symm
  | some t' =>
    obtain rfl := h id t' hholder
    refine ⟨l.set id { l.lock id with depth := (l.lock id).depth + 1 }, ?_, h.set _ (h id)⟩
    simp only [Locks.acquire, hholder, if_true]

theorem Tracks.holds_eq (h : l.Tracks used held) (handler : HandlerKey) :
    l.holds handler = (l.entries.get? handler).elim 0 held := by
  rw [holds]
  cases l.entries.get? handler with
  | none => rfl
  | some id =>
    change (if (l.lock id).holder.isSome then (l.lock id).depth else 0) = held id
    cases hholder : (l.lock id).holder with
    | none => exact (h.free id hholder).symm
    | some t => exact (h.busy id t hholder).1

theorem Spares.trans (h : l.Spares l' used held) (h' : l'.Spares l'' used held) :
    l.Spares l'' used held := by
  refine ⟨fun id hheld => (h'.holder id hheld).trans (h.holder id hheld),
    fun handler id hused hget => h'.entries handler id hused (h.entries handler id hused hget),
    Nat.le_trans h.next h'.next, fun handler id hget => ?_⟩
  rcases h'.made handler id hget with hget | hge
  · exact h.made handler id hget
  · exact .inr (Nat.le_trans h.next hge)

/-- A change that spares the locks in use leaves the counts of all handlers alone. -/
theorem Spares.holds_eq (h : l.Spares l' used held) (htracks : l.Tracks used held)
    {used' : LockId → Nat} (htracks' : l'.Tracks used' held) (hwithin : ∀ id, held id ≤ used id)
    (handler : HandlerKey) : l'.holds handler = l.holds handler := by
  rw [htracks.holds_eq, htracks'.holds_eq]
  cases hentry : l.entries.get? handler with
  | some id =>
    rcases Nat.eq_zero_or_pos (used id) with hnone | hused
    · have hzero : held id = 0 := Nat.le_zero.mp (hnone ▸ hwithin id)
      cases hentry' : l'.entries.get? handler with
      | none => exact hzero.symm
      | some id' =>
        rcases h.made handler id' hentry' with hsame | hge
        · rw [Option.some.inj (hsame.symm.trans hentry)]
        · exact (htracks.unmade id' hge).2.trans hzero.symm
    · rw [h.entries handler id hused hentry]
  | none =>
    cases hentry' : l'.entries.get? handler with
    | none => rfl
    | some id' =>
      rcases h.made handler id' hentry' with hsame | hge
      · rw [hentry] at hsame
        cases hsame
      · exact (htracks.unmade id' hge).2

/-- What spares more uses spares fewer. -/
theorem Spares.mono {used' held' : LockId → Nat} (h : l.Spares l' used' held')
    (hused : ∀ id, used id ≤ used' id) (hheld : ∀ id, held id ≤ held' id) : l.Spares l' used held :=
  ⟨fun id hpos => h.holder id (Nat.lt_of_lt_of_le hpos (hheld id)),
    fun handler id hpos => h.entries handler id (Nat.lt_of_lt_of_le hpos (hused id)), h.next, h.made⟩

theorem le_bump (count : LockId → Nat) (id id' : LockId) : count id' ≤ bump count id id' := by
  rw [bump]
  split
  · exact Nat.le_succ _
  · exact Nat.le_refl _

theorem bump_le_bump {count count' : LockId → Nat} (h : ∀ id, count id ≤ count' id) (id id' : LockId) :
    bump count id id' ≤ bump count' id id' := by
  rw [bump, bump]
  split
  · exact Nat.succ_le_succ (h id')
  · exact h id'

theorem entries_of_acquire {id : LockId} (h : l.acquire id t = some l') : l'.entries = l.entries := by
  unfold Locks.acquire at h
  cases hholder : (l.lock id).holder with
  | none =>
    simp only [hholder] at h
    cases h
    rfl
  | some t' =>
    simp only [hholder] at h
    split at h <;> cases h
    rfl

/-- With one more hold of the lock of one handler. -/
theorem Tracks.holds_bump {id : LockId} (h : l.Tracks used (bump held id)) {handler : HandlerKey}
    (handler' : HandlerKey) (hentry : l.entries.get? handler = some id) :
    l.holds handler' = (l.entries.get? handler').elim 0 held + if handler' = handler then 1 else 0 := by
  rw [h.holds_eq]
  by_cases hsame : handler' = handler
  · rw [hsame, hentry, if_pos rfl]
    exact if_pos rfl
  · rw [if_neg hsame]
    cases hentry' : l.entries.get? handler' with
    | none => rfl
    | some id' =>
      have hne : id' ≠ id := fun heq => hsame (h.apart handler' handler id (heq ▸ hentry') hentry)
      exact if_neg hne

end Locks

/-- The invocation needs the lock of this handler. -/
def Invocation.locks (i : Invocation) (b : BusId) (handler : HandlerKey) : Bool :=
  !i.subscription.concurrent && i.bus = b && i.subscription.id = handler

/-- An invocation that needs the lock of this handler starts or ends. -/
def Occurrence.concerns (b : BusId) (handler : HandlerKey) : Occurrence → Bool
  | .called i _ | .ended i _ => i.locks b handler
  | _ => false

namespace World

/-- How many invocations are in progress that need the lock of this handler. -/
def inProgress (w : World μ) (b : BusId) (handler : HandlerKey) : Nat :=
  (w.recorded (·.concerns b handler)).foldl
    (fun n o => match o with | .called _ _ => n + 1 | _ => n - 1) 0

/-- The lock of every handler is held as often as invocations are in progress that need it. -/
def IsEven (w : World μ) : Prop :=
  ∀ b handler, (w.bus b).locks.holds handler = w.inProgress b handler

theorem inProgress_called (w : World μ) (t : Thread) (i : Invocation) (object : Object) (b : BusId)
    (handler : HandlerKey) : (w.record t (.called i object)).inProgress b handler =
      w.inProgress b handler + if i.locks b handler then 1 else 0 := by
  rw [inProgress, recorded_record, List.foldl_append, List.filter_singleton, Occurrence.concerns]
  cases i.locks b handler <;> rfl

theorem inProgress_ended (w : World μ) (t : Thread) (i : Invocation) (r : Reaction) (b : BusId)
    (handler : HandlerKey) : (w.record t (.ended i r)).inProgress b handler =
      w.inProgress b handler - if i.locks b handler then 1 else 0 := by
  rw [inProgress, recorded_record, List.foldl_append, List.filter_singleton, Occurrence.concerns]
  cases i.locks b handler <;> rfl

end World

/-- How many invocations use the locks of each bus, and how many of them hold them. -/
structure Tally where
  used : BusId → LockId → Nat
  held : BusId → LockId → Nat

namespace World

/-- The locks of all buses are those that the invocations of one thread have left, all buses deliver on
the publisher's thread, and nobody else has anything to do. -/
structure Attends (t : Thread) (g : Tally) (w : World μ) : Prop where
  tracks : ∀ b, (w.bus b).locks.Tracks (g.used b) (g.held b)
  within : ∀ b id, g.held b id ≤ g.used b id
  sole : ∀ b, (w.bus b).locks.IsSole t
  publisher : ∀ b, (w.bus b).discipline = .publisher
  nobodyElse : w.executors = [] ∧ w.tasks = .empty

/-- What a thread leaves that goes from one world to another: the locks in use by the first tally are
spared, the second tally is true, and as many invocations are in progress as before. -/
structure Carries (t : Thread) (k g : Tally) (w w' : World μ) : Prop where
  attends : w'.Attends t g
  spares : ∀ b, (w.bus b).locks.Spares (w'.bus b).locks (k.used b) (k.held b)
  opened : w.buses.length ≤ w'.buses.length
  inProgress : ∀ b handler, w'.inProgress b handler = w.inProgress b handler

/-- What a thread leaves that has finished everything that it has begun. -/
abbrev Restores (t : Thread) (g : Tally) : World μ → World μ → Prop := Carries t g g

variable {t : Thread} {k g g' : Tally} {w w' w'' : World μ}

theorem Attends.restores (h : w.Attends t g) : w.Restores t g w :=
  ⟨h, fun _ => .refl, Nat.le_refl _, fun _ _ => rfl⟩

theorem Carries.trans (h : w.Carries t k g w') (h' : w'.Carries t k g' w'') : w.Carries t k g' w'' :=
  ⟨h'.attends, fun b => (h.spares b).trans (h'.spares b), Nat.le_trans h.opened h'.opened,
    fun b handler => (h'.inProgress b handler).trans (h.inProgress b handler)⟩

theorem Carries.mono (h : w.Carries t k g w') {k' : Tally} (hused : ∀ b id, k'.used b id ≤ k.used b id)
    (hheld : ∀ b id, k'.held b id ≤ k.held b id) : w.Carries t k' g w' :=
  ⟨h.attends, fun b => (h.spares b).mono (hused b) (hheld b), h.opened, h.inProgress⟩

theorem Restores.holds_eq (h : w.Attends t g) (hrestores : w.Restores t g w') (b : BusId)
    (handler : HandlerKey) : (w'.bus b).locks.holds handler = (w.bus b).locks.holds handler :=
  (hrestores.spares b).holds_eq (h.tracks b) (hrestores.attends.tracks b) (h.within b) handler

theorem Restores.isEven (h : w.Attends t g) (heven : w.IsEven) (hrestores : w.Restores t g w') :
    w'.IsEven := fun b handler => by
  rw [hrestores.holds_eq h, hrestores.inProgress, heven]

end World

/-- With the step an invocation starts that needs the lock of this handler. -/
def Step.starts (b : BusId) (handler : HandlerKey) : Step μ → Bool
  | .record _ (.called i _) => i.locks b handler
  | _ => false

/-- What has to hold when a thread that does everything takes a step: it does not wait for a lock, and it
has the locks that the invocations in progress need, together with the one that starts, unless it is
about to give a lock back. -/
structure Step.IsClear (t : Thread) (w : World μ) (s : Step μ) : Prop where
  attended : ∃ g, w.Attends t g
  acquires : ∀ b lock t', s = .acquire b lock t' → s.possible w = true
  holds : (∀ b lock, s ≠ .release b lock) → ∀ b handler,
    (w.bus b).locks.holds handler = w.inProgress b handler + if s.starts b handler then 1 else 0

/-- All steps of the program are clear while nothing else happens but that time passes, and when it ends
then as the last argument says. -/
def Proc.Safely (t : Thread) : Proc μ α → World μ → (α → World μ → Prop) → Prop
  | .done a, w, Q => ∀ time, Q a { w with time }
  | .never, w, _ => ∃ g, w.Attends t g
  | .step s next, w, Q => ∀ time, s.IsClear t { w with time } ∧
    ∀ reply w', s.run { w with time } = some (reply, w') → Safely t (next reply) w' Q

namespace Proc

variable {t : Thread} {g : Tally} {w : World μ}

theorem Safely.mono {p : Proc μ α} {Q R : α → World μ → Prop} (h : p.Safely t w Q)
    (hQR : ∀ a w, Q a w → R a w) : p.Safely t w R := by
  induction p generalizing w with
  | done a => exact fun time => hQR a _ (h time)
  | never => exact h
  | step s next ih =>
    exact fun time => ⟨(h time).1, fun reply w' hrun => ih reply ((h time).2 reply w' hrun)⟩

theorem Safely.pass {p : Proc μ α} {Q : α → World μ → Prop} (h : p.Safely t w Q) (time : Nat) :
    p.Safely t { w with time } Q := by
  cases p with
  | done a => exact h
  | never =>
    obtain ⟨g, hw⟩ := h
    exact ⟨g, hw.tracks, hw.within, hw.sole, hw.publisher, hw.nobodyElse⟩
  | step s next => exact h

theorem Safely.bind {p : Proc μ α} {f : α → Proc μ γ} {Q : γ → World μ → Prop}
    (h : p.Safely t w fun a w => (f a).Safely t w Q) : Proc.Safely t (p.bind f) w Q := by
  induction p generalizing w with
  | done a => exact h w.time
  | never => exact h
  | step s next ih =>
    exact fun time => ⟨(h time).1, fun reply w' hrun => ih reply ((h time).2 reply w' hrun)⟩

theorem safely_ask {s : Step μ} {Q : s.Reply → World μ → Prop}
    (hclear : ∀ time, s.IsClear t { w with time })
    (h : ∀ time reply w', s.run { w with time } = some (reply, w') →
      ∀ time', Q reply { w' with time := time' }) :
    Proc.Safely t (ask s) w Q := fun time => ⟨hclear time, fun reply w' hrun => h time reply w' hrun⟩

/-- The program ends what it begins, from any world in which the locks are held as often as invocations
are in progress. -/
def Balanced (t : Thread) (p : Proc μ α) : Prop :=
  ∀ (w : World μ) g, w.Attends t g → w.IsEven → p.Safely t w fun _ w' => w.Restores t g w'

end Proc

/-- The step uses no lock and nobody else, and no invocation starts or ends with it. A bus that it opens
delivers on the publisher's thread. -/
def Step.isQuiet : Step μ → Bool
  | .record _ (.called _ _) | .record _ (.ended _ _) => false
  | .openBus _ discipline => discipline = .publisher
  | .readBus _ | .record _ _ | .computeTable _ _ _ | .keepTable _ _ _ | .enrol _ _ _ | .dismiss _ _
  | .serial | .declare _ _ | .memory _ | .time | .await _ _ => true
  | _ => false

namespace Step

variable {s : Step μ} {reply : s.Reply} {w w' : World μ} {t : Thread} {g : Tally}

theorem starts_of_touchesLocks (hs : s.touchesLocks = true) (b : BusId) (handler : HandlerKey) :
    s.starts b handler = false := by
  cases s <;> first | rfl | cases hs

theorem touchesLocks_of_isQuiet (hs : s.isQuiet = true) : s.touchesLocks = false := by
  cases s <;> first | rfl | cases hs

theorem inProgress_of_isQuiet (hs : s.isQuiet = true) (h : s.run w = some (reply, w')) (b : BusId)
    (handler : HandlerKey) : w'.inProgress b handler = w.inProgress b handler := by
  have hsilent : s.occurrence?.toList.filter (·.concerns b handler) = [] := by
    cases s with
    | record t o => cases o <;> first | rfl | cases hs
    | _ => rfl
  rw [World.inProgress, recorded_run h fun _ _ _ => rfl, hsilent, List.append_nil]
  rfl

theorem discipline_of_isQuiet (hs : s.isQuiet = true) (h : s.run w = some (reply, w'))
    (hw : ∀ b, (w.bus b).discipline = .publisher) (b : BusId) : (w'.bus b).discipline = .publisher := by
  by_cases hb : b < w.buses.length
  · exact ((run_effect h).buses.discipline hb).trans (hw b)
  · cases s with
    | openBus settings discipline =>
      cases h
      rw [World.bus_append]
      split
      · exact of_decide_eq_true hs
      · exact hw b
    | _ =>
      have hlength := length_buses h nofun
      rw [World.bus_of_length_le (hlength ▸ Nat.le_of_not_lt hb)]
      rfl

theorem starts_of_isQuiet (hs : s.isQuiet = true) (b : BusId) (handler : HandlerKey) :
    s.starts b handler = false := by
  cases s with
  | record t o => cases o <;> first | rfl | cases hs
  | _ => rfl

theorem nobodyElse_of_isQuiet (hs : s.isQuiet = true) (h : s.run w = some (reply, w')) :
    w'.executors = w.executors ∧ w'.tasks = w.tasks := by
  cases s with
  | readBus b | keepTable b type table =>
    obtain ⟨bus, -, heq⟩ := Option.map_eq_some_iff.mp h
    cases heq
    exact ⟨rfl, rfl⟩
  | record _ _ | serial | openBus _ _ | declare _ _ | memory _ | time =>
    cases h
    exact ⟨rfl, rfl⟩
  | computeTable t b type =>
    cases h
    rw [World.recordAll_eq]
    exact ⟨rfl, rfl⟩
  | enrol b owner added | dismiss b owner =>
    rw [run] at h
    split at h <;> cases h <;> exact ⟨rfl, rfl⟩
  | await condition deadline =>
    obtain ⟨-, heq⟩ := Option.ite_none_right_eq_some.mp h
    cases heq
    exact ⟨rfl, rfl⟩
  | _ => cases hs

theorem restores_of_isQuiet (hs : s.isQuiet = true) (h : s.run w = some (reply, w'))
    (hw : w.Attends t g) : w.Restores t g w' := by
  have heffect := run_effect h
  have hlocks := heffect.locks (touchesLocks_of_isQuiet hs)
  have hother := nobodyElse_of_isQuiet hs h
  exact ⟨⟨fun b => hlocks b ▸ hw.tracks b, hw.within, fun b => hlocks b ▸ hw.sole b,
    discipline_of_isQuiet hs h hw.publisher, hother.1.trans hw.nobodyElse.1,
    hother.2.trans hw.nobodyElse.2⟩, fun b => hlocks b ▸ .refl, heffect.buses.length_le,
    inProgress_of_isQuiet hs h⟩

end Step

namespace World

variable {t : Thread} {k g : Tally} {w w' : World μ}

theorem Attends.pass (h : w.Attends t g) (time : Nat) : World.Attends t g { w with time } :=
  ⟨h.tracks, h.within, h.sole, h.publisher, h.nobodyElse⟩

theorem Carries.pass (h : w.Carries t k g w') (time : Nat) : w.Carries t k g { w' with time } :=
  ⟨h.attends.pass time, h.spares, h.opened, h.inProgress⟩

/-- The time at which a thread begins makes no difference. -/
theorem Carries.of_pass {time : Nat} (h : World.Carries t k g { w with time } w') : w.Carries t k g w' :=
  ⟨h.attends, h.spares, h.opened, h.inProgress⟩

theorem Attends.isClear (h : w.Attends t g) (heven : w.IsEven) {s : Step μ}
    (hs : s.touchesLocks = false) (hstarts : ∀ b handler, s.starts b handler = false) :
    s.IsClear t w := by
  refine ⟨⟨g, h⟩, ?_, fun _ b handler => ?_⟩
  · rintro b lock t' rfl
    cases hs
  · rw [hstarts b handler]
    exact heven b handler

end World

namespace Proc

variable {t : Thread}

theorem balanced_done (a : α) : Balanced (μ := μ) t (.done a) := fun _ _ hw _ time =>
  hw.restores.pass time

theorem balanced_never : Balanced (μ := μ) (α := α) t .never := fun _ g hw _ => ⟨g, hw⟩

theorem Balanced.bind {p : Proc μ α} {f : α → Proc μ γ} (h : Balanced t p) (hf : ∀ a, Balanced t (f a)) :
    Balanced t (p.bind f) := fun w g hw heven =>
  Safely.bind ((h w g hw heven).mono fun a w' hrestores =>
    (hf a w' g hrestores.attends (hrestores.isEven hw heven)).mono fun _ _ => hrestores.trans)

theorem balanced_ask {s : Step μ} (hs : s.isQuiet = true) : Balanced t (ask s) := by
  intro w g hw heven
  have hclear := fun time => (hw.pass time).isClear heven (s := s) (Step.touchesLocks_of_isQuiet hs)
    (Step.starts_of_isQuiet hs)
  refine safely_ask hclear fun time reply w' hrun time' => ?_
  exact (Step.restores_of_isQuiet hs hrun (hw.pass time)).of_pass.pass time'

theorem balanced_forEach {items : List α} {f : α → Proc μ Unit} (h : ∀ item, Balanced t (f item)) :
    Balanced t (forEach items f) := by
  induction items with
  | nil => exact balanced_done ()
  | cons item rest ih => exact (h item).bind fun _ => ih

/-- A thread sees that a bus delivers on the publisher's thread. -/
theorem balanced_readBus {b : BusId} {f : Bus → Proc μ α}
    (hf : ∀ bus : Bus, bus.discipline = .publisher → Balanced t (f bus)) :
    Balanced t ((readBus b).bind f) := by
  intro w g hw heven
  refine Safely.bind (safely_ask (fun time => (hw.pass time).isClear heven rfl fun _ _ => rfl) ?_)
  intro time bus w' hrun time'
  obtain ⟨bus', hbus, heq⟩ := Option.map_eq_some_iff.mp hrun
  obtain ⟨rfl, rfl⟩ := Prod.mk.inj heq
  have hpublisher := World.bus_of_getElem? hbus ▸ hw.publisher b
  exact (hf bus' hpublisher _ g (hw.pass time') heven).mono fun _ _ h => h.of_pass

end Proc

/-- The tally with these counts for one bus. -/
def Tally.put (g : Tally) (b : BusId) (used held : LockId → Nat) : Tally :=
  ⟨Function.update g.used b used, Function.update g.held b held⟩

@[simp] theorem Tally.used_put (g : Tally) (b b' : BusId) (used held : LockId → Nat) :
    (g.put b used held).used b' = if b' = b then used else g.used b' := Function.update_apply ..

@[simp] theorem Tally.held_put (g : Tally) (b b' : BusId) (used held : LockId → Nat) :
    (g.put b used held).held b' = if b' = b then held else g.held b' := Function.update_apply ..

theorem Tally.put_put (g : Tally) (b : BusId) (used held used' held' : LockId → Nat) :
    (g.put b used held).put b used' held' = g.put b used' held' := by
  simp only [put, Function.update_idem]

theorem Tally.put_self (g : Tally) (b : BusId) : g.put b (g.used b) (g.held b) = g := by
  simp only [put, Function.update_eq_self]

namespace World

variable {t : Thread} {k g : Tally} {w w' : World μ} {b : BusId}

theorem locks_setLocks (hb : b < w.buses.length) (locks : Locks) :
    ((w.setLocks b locks).bus b).locks = locks := congrArg Bus.locks (w.bus_setBus b _ hb)

/-- Shares of the locks of a bus make no difference to how often they are held. -/
theorem Carries.holds_eq {used : LockId → Nat} (h : w.Carries t g (g.put b used (g.held b)) w')
    (hw : w.Attends t g) (b' : BusId) (handler : HandlerKey) :
    (w'.bus b').locks.holds handler = (w.bus b').locks.holds handler := by
  have hheld : (g.put b used (g.held b)).held b' = g.held b' := by
    rw [Tally.held_put]
    split
    · rename_i heq
      rw [heq]
    · rfl
  exact (h.spares b').holds_eq (hw.tracks b') (hheld ▸ h.attends.tracks b') (hw.within b') handler

theorem Carries.isEven {used : LockId → Nat} (h : w.Carries t g (g.put b used (g.held b)) w')
    (hw : w.Attends t g) (heven : w.IsEven) : w'.IsEven := fun b' handler => by
  rw [h.holds_eq hw, h.inProgress, heven]

/-- A change of the locks of one bus that its tally follows. -/
theorem carries_setLocks (hw : w.Attends t g) (hb : b < w.buses.length) {locks : Locks}
    {used held : LockId → Nat} (htracks : locks.Tracks used held) (hwithin : ∀ id, held id ≤ used id)
    (hsole : locks.IsSole t) (hspares : (w.bus b).locks.Spares locks (k.used b) (k.held b)) :
    w.Carries t k (g.put b used held) (w.setLocks b locks) := by
  have hsame := locks_setLocks hb locks
  have hother : ∀ b', b' ≠ b → (w.setLocks b locks).bus b' = w.bus b' := fun b' hne =>
    w.bus_setBus_of_ne _ hne.symm
  have hdiscipline : ((w.setLocks b locks).bus b).discipline = (w.bus b).discipline := by
    rw [setLocks, w.bus_setBus b _ hb]
  refine ⟨⟨fun b' => ?_, fun b' => ?_, fun b' => ?_, fun b' => ?_, hw.nobodyElse⟩, fun b' => ?_,
    Nat.le_of_eq (w.length_setBus ..).symm, fun _ _ => rfl⟩ <;> by_cases hb' : b' = b
  · simpa only [Tally.used_put, Tally.held_put, hb', if_true, hsame] using htracks
  · simpa only [Tally.used_put, Tally.held_put, hb', if_false, hother b' hb'] using hw.tracks b'
  · simpa only [Tally.used_put, Tally.held_put, hb', if_true] using hwithin
  · simpa only [Tally.used_put, Tally.held_put, hb', if_false] using hw.within b'
  · simpa only [hb', hsame] using hsole
  · simpa only [hother b' hb'] using hw.sole b'
  · rw [hb', hdiscipline, hw.publisher]
  · rw [hother b' hb', hw.publisher]
  · simpa only [hb', hsame] using hspares
  · rw [hother b' hb']
    exact .refl

end World

namespace Proc

variable {t : Thread} {g : Tally} {w : World μ}

/-- A step that uses a lock, and does not wait if it acquires it. -/
theorem safely_locking {s : Step μ} {Q : s.Reply → World μ → Prop} (hw : w.Attends t g)
    (hs : s.touchesLocks = true) (heven : (∀ b lock, s ≠ .release b lock) → w.IsEven)
    (hpossible : ∀ time b lock t', s = .acquire b lock t' → s.possible { w with time } = true)
    (h : ∀ time reply w', s.run { w with time } = some (reply, w') →
      ∀ time', Q reply { w' with time := time' }) : Proc.Safely t (ask s) w Q := by
  refine safely_ask (fun time => ⟨⟨g, hw.pass time⟩, hpossible time, fun hkeeps b handler => ?_⟩) h
  rw [Step.starts_of_touchesLocks hs]
  exact heven hkeeps b handler

/-- A step that changes the locks of a bus. -/
theorem safely_setLocks {s : Step μ} {b : BusId} (change : Bus → Locks) {k : Tally}
    {used held : LockId → Nat} (hw : w.Attends t g) (hs : s.touchesLocks = true)
    (heven : (∀ b lock, s ≠ .release b lock) → w.IsEven)
    (hrun : ∀ (w : World μ) reply w', s.run w = some (reply, w') →
      w' = w.setLocks b (change (w.bus b)))
    (hacquire : ∀ b lock t', s ≠ .acquire b lock t') (hb : b < w.buses.length)
    (htracks : (change (w.bus b)).Tracks used held) (hwithin : ∀ id, held id ≤ used id)
    (hsole : (change (w.bus b)).IsSole t)
    (hspares : (w.bus b).locks.Spares (change (w.bus b)) (k.used b) (k.held b)) :
    Proc.Safely t (ask s) w fun _ w' => w.Carries t k (g.put b used held) w' := by
  refine safely_locking hw hs heven (fun _ b lock t' heq => absurd heq (hacquire b lock t')) ?_
  intro time reply w' hstep time'
  obtain rfl := hrun _ _ _ hstep
  exact (World.carries_setLocks (hw.pass time) hb htracks hwithin hsole hspares).of_pass.pass time'

/-- A thread acquires a lock of which it has a share. -/
theorem safely_acquire {b : BusId} {handler : HandlerKey} {lock : LockId} {k : Tally} (hw : w.Attends t g)
    (heven : w.IsEven) (hb : b < w.buses.length)
    (hentry : (w.bus b).locks.entries.get? handler = some lock)
    (hused : 0 < g.used b lock) (hwithin : ∀ id, Locks.bump (g.held b) lock id ≤ g.used b id)
    (hk : ∀ id, k.used b id ≤ g.used b id) (hk' : ∀ id, k.held b id ≤ g.held b id) :
    Proc.Safely t (acquire b lock t) w fun _ w' =>
      w.Carries t k (g.put b (g.used b) (Locks.bump (g.held b) lock)) w' ∧
      ∀ b' handler', (w'.bus b').locks.holds handler' =
        (w.bus b').locks.holds handler' + if b' = b ∧ handler' = handler then 1 else 0 := by
  obtain ⟨locks, hacquire, hsole⟩ := (hw.sole b).exists_acquire lock
  obtain ⟨htracks, hspares, -⟩ := (hw.tracks b).acquire hused hacquire
  refine safely_locking hw rfl (fun _ => heven) (fun time b' lock' t' heq => ?_)
    fun time _ w' hrun time' => ?_
  · cases heq
    exact congrArg Option.isSome hacquire
  · obtain ⟨locks', hlocks', heq⟩ := Option.map_eq_some_iff.mp hrun
    obtain rfl := Option.some.inj (hlocks'.symm.trans hacquire)
    obtain ⟨-, rfl⟩ := Prod.mk.inj heq
    refine ⟨((World.carries_setLocks (hw.pass time) hb htracks hwithin hsole
      (hspares.mono hk hk')).of_pass).pass time', fun b' handler' => ?_⟩
    change ((w.setLocks b locks').bus b').locks.holds handler' = _
    by_cases hb' : b' = b
    · subst hb'
      have hentries := Locks.entries_of_acquire hacquire
      rw [World.locks_setLocks hb, htracks.holds_bump handler' (hentries ▸ hentry), hentries,
        ← (hw.tracks b').holds_eq]
      simp only [true_and]
    · rw [World.setLocks, w.bus_setBus_of_ne _ fun heq => hb' heq.symm, if_neg fun h => hb' h.1]
      rfl

/-- A thread takes a share of a handler's lock. -/
theorem safely_share {b : BusId} {handler : HandlerKey} (hw : w.Attends t g) (heven : w.IsEven) :
    Proc.Safely t (share b handler) w fun lock w' => b < w.buses.length ∧
      w.Carries t g (g.put b (Locks.bump (g.used b) lock) (g.held b)) w' ∧
      (w'.bus b).locks.entries.get? handler = some lock := by
  refine safely_locking hw rfl (fun _ => heven) nofun fun time lock w' hrun time' => ?_
  obtain ⟨bus, hbus, heq⟩ := Option.map_eq_some_iff.mp hrun
  obtain ⟨rfl, rfl⟩ := Prod.mk.inj heq
  have hb : b < w.buses.length := (List.getElem?_eq_some_iff.mp hbus).1
  obtain rfl : w.bus b = bus := World.bus_of_getElem? hbus
  obtain ⟨htracks, hspares, hentry⟩ := (hw.tracks b).share handler
  have hwithin : ∀ id, g.held b id ≤ Locks.bump (g.used b) ((w.bus b).locks.share handler).1 id :=
    fun id => Nat.le_trans (hw.within b id) (Locks.le_bump _ _ id)
  refine ⟨hb, ?_, ?_⟩
  · exact ((World.carries_setLocks (hw.pass time) hb htracks hwithin
      ((hw.sole b).share handler) hspares).of_pass).pass time'
  · change ((w.setLocks b ((w.bus b).locks.share handler).2).bus b).locks.entries.get? handler = _
    rw [World.locks_setLocks hb]
    exact hentry

/-- A thread gives back a lock that it holds, and its share of it. -/
theorem safely_giveBack {b : BusId} {lock : LockId} (hb : b < w.buses.length)
    (hw : w.Attends t (g.put b (Locks.bump (g.used b) lock) (Locks.bump (g.held b) lock)))
    (hwithin : ∀ b id, g.held b id ≤ g.used b id)
    (heven : ∀ w' used, w.Carries t g (g.put b used (g.held b)) w' → w'.IsEven) :
    Proc.Safely t (Program.bind (release b lock) fun _ => unshare b lock) w fun _ w' =>
      w.Carries t g g w' := by
  have htracks := hw.tracks b
  simp only [Tally.used_put, Tally.held_put, if_true] at htracks
  have hused : 0 < Locks.bump (g.used b) lock lock := by
    rw [Locks.bump, if_pos rfl]
    exact Nat.succ_pos _
  obtain ⟨hreleased, hspares⟩ := htracks.release hused
  refine Safely.bind ((safely_setLocks (·.locks.release lock) (k := g) hw rfl ?_ ?_ ?_ hb hreleased ?_
    ((hw.sole b).release lock) (hspares.mono (Locks.le_bump _ _) fun _ => Nat.le_refl _)).mono ?_)
  · exact fun hkeeps => absurd rfl (hkeeps b lock)
  · rintro w reply w' ⟨⟩
    rfl
  · intro _ _ _ heq
    cases heq
  · exact fun id => Nat.le_trans (hwithin b id) (Locks.le_bump _ _ id)
  intro _ w₁ h₁
  rw [Tally.put_put] at h₁
  have hb₁ := Nat.lt_of_lt_of_le hb h₁.opened
  have htracks₁ := h₁.attends.tracks b
  simp only [Tally.used_put, Tally.held_put, if_true] at htracks₁
  obtain ⟨hunshared, hspares₁⟩ := htracks₁.unshare
  refine (safely_setLocks (·.locks.unshare lock) (k := g) h₁.attends rfl (fun _ => heven w₁ _ h₁) ?_ ?_
    hb₁ hunshared (hwithin b) ((h₁.attends.sole b).unshare lock) hspares₁).mono ?_
  · rintro w reply w' ⟨⟩
    rfl
  · intro _ _ _ heq
    cases heq
  intro _ w₂ h₂
  rw [Tally.put_put, Tally.put_self] at h₂
  exact h₁.trans h₂

/-- A thread removes the entry of a handler that is gone. -/
theorem safely_discard {b : BusId} (handler : HandlerKey) (hw : w.Attends t g) (heven : w.IsEven)
    (hb : b < w.buses.length) :
    Proc.Safely t (discard b handler) w fun _ w' => w.Restores t g w' := by
  obtain ⟨hdiscarded, hspares⟩ := (hw.tracks b).discard handler
  refine (safely_setLocks (·.locks.discard handler) (k := g) hw rfl (fun _ => heven) ?_ ?_ hb hdiscarded
    (hw.within b) ((hw.sole b).discard handler) hspares).mono fun _ w' h => ?_
  · rintro w reply w' ⟨⟩
    rfl
  · intro _ _ _ heq
    cases heq
  · rwa [Tally.put_self] at h

/-- A thread leaves an exclusive handler. -/
theorem safely_leave {b : BusId} {lock : LockId} {s : Subscription} (a : α) (hb : b < w.buses.length)
    (hw : w.Attends t (g.put b (Locks.bump (g.used b) lock) (Locks.bump (g.held b) lock)))
    (hwithin : ∀ b id, g.held b id ≤ g.used b id)
    (heven : ∀ w' used, w.Carries t g (g.put b used (g.held b)) w' → w'.IsEven) :
    Proc.Safely t (do
        release b lock
        unshare b lock
        let bus ← readBus b
        if bus.roster.contains s.id.owner then
          return a
        else
          discard b s.id
          return a) w fun _ w' => w.Carries t g g w' := by
  have heven₁ : ∀ w', w.Carries t g g w' → w'.IsEven := fun w' h =>
    heven w' (g.used b) (by rwa [Tally.put_self])
  simp only [bind_eq, pure_eq]
  rw [← bind_assoc]
  refine Safely.bind ((safely_giveBack hb hw hwithin heven).mono fun _ w₁ h₁ => ?_)
  refine Safely.bind (safely_ask (fun time => (h₁.attends.pass time).isClear (heven₁ w₁ h₁) rfl
    fun _ _ => rfl) fun time bus w₂ hrun time' => ?_)
  have h₂ := h₁.trans ((Step.restores_of_isQuiet rfl hrun (h₁.attends.pass time)).of_pass.pass time')
  split
  · exact fun time => h₂.pass time
  · have hb₂ := Nat.lt_of_lt_of_le hb h₂.opened
    exact Safely.bind ((safely_discard s.id h₂.attends (heven₁ _ h₂) hb₂).mono fun _ w₃ h₃ time =>
      (h₂.trans h₃).pass time)

/-- While an exclusive handler runs, its lock is held once more. -/
theorem safely_exclusively {body : Proc μ α} {b : BusId} {s : Subscription}
    (hs : s.concurrent = false) (hw : w.Attends t g) (heven : w.IsEven)
    (hbody : ∀ w₁ g₁, w₁.Attends t g₁ → (∀ b' handler, (w₁.bus b').locks.holds handler =
        (w.bus b').locks.holds handler + if b' = b ∧ handler = s.id then 1 else 0) →
      (∀ b' handler, w₁.inProgress b' handler = w.inProgress b' handler) →
      body.Safely t w₁ fun _ w₂ => w₁.Restores t g₁ w₂) :
    Proc.Safely t (exclusively t b s body) w fun _ w' => w.Restores t g w' := by
  rw [exclusively, hs, if_neg Bool.false_ne_true]
  refine Safely.bind ((safely_share hw heven).mono ?_)
  rintro lock w₁ ⟨hb, h₁, hentry⟩
  have hused : 0 < (g.put b (Locks.bump (g.used b) lock) (g.held b)).used b lock := by
    rw [Tally.used_put, if_pos rfl, Locks.bump, if_pos rfl]
    exact Nat.succ_pos _
  have heven₁ : w₁.IsEven := h₁.isEven hw heven
  have hb₁ := Nat.lt_of_lt_of_le hb h₁.opened
  refine Safely.bind ((safely_acquire (k := g) h₁.attends heven₁ hb₁ hentry hused ?_ ?_ ?_).mono ?_)
  · simp only [Tally.used_put, Tally.held_put, if_true]
    exact Locks.bump_le_bump (hw.within b) lock
  · simp only [Tally.used_put, if_true]
    exact Locks.le_bump _ lock
  · simp only [Tally.held_put, if_true]
    exact fun _ => Nat.le_refl _
  rintro _ w₂ ⟨h₂, hholds⟩
  simp only [Tally.used_put, Tally.held_put, if_true, Tally.put_put] at h₂
  have hentered := h₁.trans h₂
  refine Safely.bind ((hbody w₂ _ h₂.attends (fun b' handler => ?_) hentered.inProgress).mono
    fun a w₃ h₃ => ?_)
  · rw [hholds, h₁.holds_eq hw]
  have hmore : ∀ b' id, g.used b' id ≤ (g.put b (Locks.bump (g.used b) lock)
      (Locks.bump (g.held b) lock)).used b' id ∧ g.held b' id ≤ (g.put b (Locks.bump (g.used b) lock)
      (Locks.bump (g.held b) lock)).held b' id := by
    intro b' id
    rw [Tally.used_put, Tally.held_put]
    split
    · rename_i heq
      subst heq
      exact ⟨Locks.le_bump _ _ id, Locks.le_bump _ _ id⟩
    · exact ⟨Nat.le_refl _, Nat.le_refl _⟩
  have hran := hentered.trans (h₃.mono (fun b' id => (hmore b' id).1) fun b' id => (hmore b' id).2)
  have hleft : ∀ w', w₃.Carries t g g w' → w.Restores t g w' := fun _ h₄ => hran.trans h₄
  exact (safely_leave a (Nat.lt_of_lt_of_le hb hran.opened) h₃.attends hw.within
    fun w' used h₄ => World.Carries.isEven (hran.trans h₄) hw heven).mono fun _ => hleft

/-- Something is written down, such as the start or the end of an invocation. -/
theorem safely_record {o : Occurrence} (hw : w.Attends t g)
    (hholds : ∀ b handler, (w.bus b).locks.holds handler = w.inProgress b handler +
      if (Step.record (μ := μ) t o).starts b handler then 1 else 0) {Q : World μ → Prop}
    (hQ : ∀ time, Q { (w.record t o) with time }) : Proc.Safely t (record t o) w fun _ w' => Q w' := by
  refine safely_ask (fun time => ⟨⟨g, hw.pass time⟩, nofun, fun _ => hholds⟩) ?_
  rintro time reply w' ⟨⟩ time'
  exact hQ time'

/-- From its start to its end, an invocation is in progress. -/
theorem safely_called {handle : Proc μ Reaction} (hhandle : Balanced t handle) (i : Invocation)
    (object : Object) (hw : w.Attends t g) (hholds : ∀ b handler, (w.bus b).locks.holds handler =
      w.inProgress b handler + if i.locks b handler then 1 else 0) :
    Proc.Safely t (do
        record t (.called i object)
        let reaction ← handle
        record t (.ended i reaction)
        return reaction) w fun _ w' => w.Restores t g w' := by
  have hattends : ∀ {w : World μ} (o : Occurrence), w.Attends t g → World.Attends t g (w.record t o) :=
    fun o h => ⟨h.tracks, h.within, h.sole, h.publisher, h.nobodyElse⟩
  refine Safely.bind (safely_record (o := .called i object) hw hholds fun time => ?_)
  have heven : World.IsEven (w.record t (.called i object)) := fun b handler =>
    (hholds b handler).trans (World.inProgress_called w t i object b handler).symm
  refine Safely.bind ((hhandle _ g ((hattends _ hw).pass time) heven).mono fun r w₁ h₁ => ?_)
  have heven₁ : w₁.IsEven := h₁.isEven ((hattends _ hw).pass time) heven
  refine Safely.bind (safely_record (o := .ended i r) h₁.attends heven₁ fun time' time'' => ?_)
  refine ⟨((hattends _ h₁.attends).pass time').pass time'', h₁.spares, h₁.opened, fun b handler => ?_⟩
  have hended := World.inProgress_ended w₁ t i r b handler
  have hcalled := World.inProgress_called w t i object b handler
  have hsame : w₁.inProgress b handler = (w.record t (.called i object)).inProgress b handler :=
    h₁.inProgress b handler
  change (w₁.record t (.ended i r)).inProgress b handler = _
  rw [hended, hsame, hcalled, Nat.add_sub_cancel]

end Proc

/-- The code that a client brings ends what it begins. -/
structure Client.IsBalanced (t : Thread) (client : Client μ) : Prop where
  handle : ∀ code object, Proc.Balanced t (client.handle code object)
  observe : ∀ code failure, Proc.Balanced t (client.observe code failure)

namespace Proc

variable {t : Thread} {client : Client μ}

theorem balanced_runHandler (hclient : client.IsBalanced t) (d : Delivery) :
    Balanced t (runHandler client t d) := by
  intro w g hw heven
  obtain ⟨body, hrun, hbody⟩ : ∃ body,
      runHandler client t d = exclusively t d.invocation.bus d.invocation.subscription body ∧
      ∀ (w₁ : World μ) g₁, w₁.Attends t g₁ → (∀ b handler, (w₁.bus b).locks.holds handler =
        w₁.inProgress b handler + if d.invocation.locks b handler then 1 else 0) →
        Proc.Safely t body w₁ fun _ w₂ => w₁.Restores t g₁ w₂ := by
    refine ⟨_, rfl, fun w₁ g₁ h₁ hholds => ?_⟩
    split
    · exact fun time => h₁.restores.pass time
    · exact safely_called (hclient.handle _ _) d.invocation _ h₁ hholds
  rw [hrun]
  cases hs : d.invocation.subscription.concurrent with
  | true =>
    rw [exclusively, hs, if_pos rfl]
    refine hbody w g hw fun b handler => ?_
    rw [heven, Invocation.locks, hs]
    rfl
  | false =>
    refine safely_exclusively hs hw heven fun w₁ g₁ h₁ hholds hprogress =>
      hbody w₁ g₁ h₁ fun b handler => ?_
    rw [hholds, heven, hprogress, Invocation.locks, hs]
    refine congrArg (_ + ·) (if_congr ?_ rfl rfl)
    simp only [Bool.not_false, Bool.true_and, Bool.and_eq_true, decide_eq_true_eq]
    exact and_congr eq_comm eq_comm

theorem balanced_log {level : Level} {target message : String} {fields : List (String × String)} :
    Balanced (μ := μ) t (log t level target message fields) := balanced_ask rfl

theorem balanced_tellAll (hclient : client.IsBalanced t) (i : Invocation) (cause : Cause) :
    Balanced t (tellAll client t i cause) := by
  refine (balanced_ask (s := .readBus i.bus) rfl).bind fun bus => ?_
  refine (balanced_forEach fun (observer, place) => ?_).bind fun _ => balanced_done _
  refine (balanced_ask (s := .record t (.reported i place observer _)) rfl).bind fun _ => ?_
  cases observer with
  | log => exact balanced_done _
  | custom label name body =>
    refine (hclient.observe body _).bind fun payload => ?_
    cases payload with
    | none => exact balanced_done _
    | some payload => exact balanced_log

theorem balanced_deliverAll (hclient : client.IsBalanced t) (policy : ErrorPolicy)
    (failures : List Failure) (ds : List Delivery) :
    Balanced t (deliverAll client t policy failures ds) := by
  induction ds generalizing failures with
  | nil => exact balanced_done _
  | cons d ds ih =>
    refine (balanced_runHandler hclient d).bind fun r => ?_
    cases r with
    | fine => exact ih failures
    | panicked payload => exact (balanced_tellAll hclient _ _).bind fun _ => balanced_done _
    | failed error =>
      refine (balanced_tellAll hclient _ _).bind fun failure => ?_
      cases policy with
      | propagate => exact balanced_done _
      | collect => exact ih _

theorem balanced_tableOf (b : BusId) (type : EventType) : Balanced (μ := μ) t (tableOf t b type) := by
  refine (balanced_ask (s := .readBus b) rfl).bind fun bus => ?_
  cases bus.tables.get? type with
  | some table => exact balanced_done _
  | none =>
    exact (balanced_ask (s := .computeTable t b type) rfl).bind fun table =>
      balanced_ask (s := .keepTable b type table) rfl

theorem balanced_selection (b : BusId) (type : EventType) : Balanced (μ := μ) t (selection t b type) :=
  (balanced_tableOf b type).bind fun _ =>
    (balanced_ask (s := .readBus b) rfl).bind fun _ => balanced_done _

theorem balanced_post (hclient : client.IsBalanced t) (b : BusId) (event : Event) :
    Balanced t (post client t b event) := by
  refine (balanced_ask (s := .serial) rfl).bind fun id => ?_
  refine Balanced.bind ?_ fun found => ?_
  · refine (balanced_selection b event.type).bind fun found => ?_
    refine (balanced_ask (s := .readBus b) rfl).bind fun bus => ?_
    by_cases hempty : found.isEmpty
    · simp only [hempty, if_true]
      exact balanced_log.bind fun _ => balanced_done _
    · simp only [hempty]
      exact balanced_log.bind fun _ => balanced_done _
  refine (balanced_ask (s := .record t (.selected id _)) rfl).bind fun _ => ?_
  refine balanced_readBus fun bus hbus => ?_
  rw [hbus]
  exact (balanced_deliverAll hclient _ _ _).bind fun outcome =>
    (balanced_ask (s := .record t (.answered id outcome)) rfl).bind fun _ => balanced_done _

theorem balanced_register (b : BusId) (s : Subscriber) : Balanced (μ := μ) t (register t b s) := by
  refine (balanced_ask (s := .record t (.listed s.owner _)) rfl).bind fun _ => ?_
  refine (balanced_ask (s := .readBus b) rfl).bind fun bus => ?_
  cases s.subscribe with
  | error error => exact balanced_log.bind fun _ => balanced_done _
  | ok subscriptions =>
    refine (balanced_ask (s := .enrol b s.owner subscriptions) rfl).bind fun isNew => ?_
    cases isNew <;> exact balanced_log.bind fun _ => balanced_done _

theorem balanced_prune (b : BusId) : Balanced (μ := μ) t (prune b) := by
  intro w g hw heven
  by_cases hb : b < w.buses.length
  · obtain ⟨htracks, hspares⟩ := (hw.tracks b).prune (w.bus b).roster.contains
    refine (safely_setLocks (fun bus => bus.locks.prune bus.roster.contains) (k := g) hw rfl
      (fun _ => heven)
      ?_ ?_ hb
      htracks (hw.within b) ((hw.sole b).prune _) hspares).mono fun _ w' h => ?_
    · rintro w reply w' ⟨⟩
      rfl
    · intro _ _ _ heq
      cases heq
    · rwa [Tally.put_self] at h
  · refine safely_locking hw rfl (fun _ => heven) nofun fun time reply w' hrun time' => ?_
    have hsame : w' = { w with time } := by
      cases hrun
      exact World.setBus_of_le _ _ (Nat.le_of_not_lt hb)
    rw [hsame]
    exact (hw.restores.pass time).pass time'

theorem balanced_unregister (b : BusId) (owner : SubscriberId) (name : String) :
    Balanced (μ := μ) t (unregister t b owner name) := by
  refine (balanced_ask (s := .dismiss b owner) rfl).bind fun removed => ?_
  cases removed with
  | none => exact balanced_done _
  | some removed =>
    refine (balanced_prune b).bind fun _ => ?_
    exact (balanced_ask (s := .readBus b) rfl).bind fun _ => balanced_log.bind fun _ => balanced_done _

end Proc

/-- The call needs no other thread, and no executor that has to be told when to run its jobs. -/
def Call.isOwn : Call μ → Bool
  | .readBus _ | .post _ _ | .register _ _ | .unregister _ _ _ | .reaches _ _ | .assignable _ _
  | .declare _ _ | .note _ _ | .memory _ | .await _ _ => true
  | .openBus _ discipline => discipline = .publisher
  | _ => false

def Body.IsOwn : Body μ α → Prop
  | .done _ => True
  | .never => True
  | .step c next => c.isOwn = true ∧ ∀ reply, IsOwn (next reply)

/-- The code of the handlers and the observers. -/
structure Behaviour.IsOwn (β : Behaviour μ) : Prop where
  handle : ∀ code object, (β.handle code object).IsOwn
  observe : ∀ code failure, (β.observe code failure).IsOwn

namespace Proc

variable {t : Thread} {β : Behaviour μ}

theorem balanced_expand {meaning : (c : Call μ) → Proc μ c.Reply}
    (hmeaning : ∀ c : Call μ, c.isOwn = true → Balanced t (meaning c)) {body : Body μ α}
    (hbody : body.IsOwn) : Balanced t (body.expand meaning) := by
  induction body with
  | done a => exact balanced_done a
  | never => exact balanced_never
  | step c next ih => exact (hmeaning c hbody.1).bind fun reply => ih reply (hbody.2 reply)

theorem isBalanced_client {meaning : (c : Call μ) → Proc μ c.Reply} (hβ : β.IsOwn)
    (hmeaning : ∀ c : Call μ, c.isOwn = true → Balanced t (meaning c)) :
    (β.client meaning).IsBalanced t :=
  ⟨fun code object => balanced_expand hmeaning (hβ.handle code object),
    fun code failure => balanced_expand hmeaning (hβ.observe code failure)⟩

theorem balanced_perform (hβ : β.IsOwn) (depth : Nat) (c : Call μ) (hc : c.isOwn = true) :
    Balanced t (β.perform depth t c) := by
  induction depth generalizing c with
  | zero => exact balanced_never
  | succ depth ih =>
    have hclient : (β.client (β.perform depth t)).IsBalanced t := isBalanced_client hβ ih
    cases c with
    | readBus b => exact (balanced_ask (s := .readBus b) rfl).bind fun _ => balanced_done _
    | post b event => exact balanced_post hclient b event
    | register b s => exact balanced_register b s
    | unregister b owner name => exact balanced_unregister b owner name
    | reaches b type => exact (balanced_selection b type).bind fun _ => balanced_done _
    | assignable b type => exact (balanced_tableOf b type).bind fun _ => balanced_done _
    | declare type steps => exact balanced_ask (s := .declare type steps) rfl
    | openBus settings discipline => exact balanced_ask (s := .openBus settings discipline) hc
    | note operation answer => exact balanced_ask (s := .record t (.nested operation answer)) rfl
    | memory change => exact balanced_ask (s := .memory change) rfl
    | await condition patience =>
      exact (balanced_ask (s := .time) rfl).bind fun now =>
        balanced_ask (s := .await condition (now + patience)) rfl
    | _ => cases hc

theorem balanced_run (hβ : β.IsOwn) (depth : Nat) {body : Body μ α} (hbody : body.IsOwn) :
    Balanced t (β.run depth t body) := balanced_expand (balanced_perform hβ depth) hbody

end Proc

end PubSub
