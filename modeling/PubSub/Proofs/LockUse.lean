import PubSub.Proofs.LockTable
import PubSub.Proofs.Moves

/-!
# Locks in use

Each lock of a bus counts the invocations that use it, and names the thread of those that hold it.
Whatever posts, registrations and unregistrations threads perform, a lock in use stays in the table
of its handler.
-/
namespace PubSub

variable {μ : Type}

/-- A lock that an invocation of a handler uses, and the thread that holds it for this invocation. -/
structure Usage where
  bus : BusId
  handler : HandlerKey
  lock : LockId
  holder : Option Thread

def Hand.usage? : Hand → Option Usage
  | ⟨i, _, some (lock, holder)⟩ => some ⟨i.bus, i.subscription.id, lock, holder⟩
  | ⟨_, _, none⟩ => none

def Frame.usage? (f : Frame) : Option Usage := f.hand?.bind Hand.usage?

namespace Standing

/-- The locks that a thread uses, for the latest invocation first. -/
def usages (g : Standing) : List Usage := g.stack.filterMap Frame.usage?

end Standing

theorem Frame.usage?_focus (f : Frame) : f.focus.usage? = f.usage? := by
  unfold focus
  split <;> rfl

theorem Frame.usage?_withHand (f : Frame) (hand : Hand) : (f.withHand hand).usage? = hand.usage? := by
  rw [usage?, hand?_withHand]
  rfl

/-- Deeds that take a lock or give it back. -/
def Deed.isLocking : Deed μ → Bool
  | .step (.share _ _) _ | .step (.acquire _ _ _) _ => true
  | .step (.release _ _) _ | .step (.unshare _ _) _ => true
  | _ => false

/-- What can become of the locks that a thread uses. -/
inductive Usage.Moves : Deed μ → List Usage → List Usage → Prop where
  | same {deed : Deed μ} {before : List Usage} (aside : deed.isLocking = false) :
      Moves deed before before
  | share {b : BusId} {handler : HandlerKey} {lock : LockId} {before : List Usage} :
      Moves (.step (.share b handler) lock) before (⟨b, handler, lock, none⟩ :: before)
  | acquire {b : BusId} {handler : HandlerKey} {lock : LockId} {t : Thread} {rest : List Usage} :
      Moves (.step (.acquire b lock t) ()) (⟨b, handler, lock, none⟩ :: rest)
        (⟨b, handler, lock, some t⟩ :: rest)
  | release {b : BusId} {handler : HandlerKey} {lock : LockId} {t : Thread} {rest : List Usage} :
      Moves (.step (.release b lock) ()) (⟨b, handler, lock, some t⟩ :: rest)
        (⟨b, handler, lock, none⟩ :: rest)
  | unshare {b : BusId} {handler : HandlerKey} {lock : LockId} {rest : List Usage} :
      Moves (.step (.unshare b lock) ()) (⟨b, handler, lock, none⟩ :: rest) rest

theorem Hand.Moves.usages {deed : Deed μ} {hand hand' : Hand} (h : hand.Moves deed hand')
    (rest : List Usage) :
    Usage.Moves deed (hand.usage?.toList ++ rest) (hand'.usage?.toList ++ rest) := by
  cases h with
  | share => exact .share
  | acquire => exact .acquire
  | release => exact .release
  | unshare => exact .unshare
  | @finish _ _ _ grip => cases grip <;> exact .same rfl
  | _ => exact .same rfl

theorem Deed.isLocking_of_isQuiet {deed : Deed μ} (h : deed.isQuiet = true) :
    deed.isLocking = false := by
  cases deed with
  | step s reply => cases s <;> first | rfl | cases h
  | _ => rfl

theorem Deed.isLocking_of_accepted? {deed : Deed μ} {i : Invocation} (h : deed.accepted? = some i) :
    deed.isLocking = false := by
  obtain ⟨_, _, _, -, rfl | rfl⟩ := eq_of_accepted? h <;> rfl

theorem Deed.isLocking_of_taken? {deed : Deed μ} {i : Invocation} (h : deed.taken? = some i) :
    deed.isLocking = false := by
  obtain ⟨_, _, -, rfl | ⟨_, _, rfl⟩⟩ := eq_of_taken? h <;> rfl

theorem Standing.Moves.usages {g g' : Standing} {deed : Deed μ} (h : g.Moves g' deed) :
    Usage.Moves deed g.usages g'.usages := by
  unfold Standing.usages
  cases h with
  | quiet quiet _ stack => exact stack ▸ .same (Deed.isLocking_of_isQuiet quiet)
  | serial _ stack => exact stack ▸ .same rfl
  | select _ _ _ _ stack => exact stack ▸ .same rfl
  | @hand _ top top' rest hand hand' before focus held moves _ stack =>
    have hmoves := moves.usages (rest.filterMap Frame.usage?)
    have hold : top.usage? = hand.usage? := by
      have htop' : top'.usage? = hand.usage? := by
        rw [Frame.usage?, held]
        rfl
      rcases focus with rfl | rfl
      · exact htop'
      · rw [← htop', Frame.usage?_focus]
    rw [before, stack, List.filterMap_cons, List.filterMap_cons, hold, Frame.usage?_withHand]
    cases hu : hand.usage? <;> cases hu' : hand'.usage? <;> simp only [hu, hu'] at hmoves <;>
      exact hmoves
  | submit before _ stack => exact before ▸ stack ▸ .same rfl
  | accepted accepted before _ stack =>
    exact before ▸ stack ▸ .same (Deed.isLocking_of_accepted? accepted)
  | refuse before _ stack => exact before ▸ stack ▸ .same rfl
  | drop before _ stack => exact before ▸ stack ▸ .same rfl
  | settlePost before _ stack => exact before ▸ stack ▸ .same rfl
  | settleJob _ before _ => exact before ▸ .same rfl
  | @answer _ id _ hand todo between before _ =>
    have hnone : (Frame.post id hand todo).usage? = none := by
      cases hand with
      | none => rfl
      | some hand =>
        obtain ⟨i, r, told, rfl⟩ := between hand rfl
        rfl
    rw [before, List.filterMap_cons, hnone]
    exact .same rfl
  | take taken _ stack => exact stack ▸ .same (Deed.isLocking_of_taken? taken)

def Usage.isOf (b : BusId) (lock : LockId) (u : Usage) : Bool := u.bus = b ∧ u.lock = lock

/-- How many invocations use a lock, and how many of them hold it. -/
def Standing.uses (b : BusId) (lock : LockId) (g : Standing) : Nat :=
  g.usages.countP (·.isOf b lock)

def Standing.holds (b : BusId) (lock : LockId) (g : Standing) : Nat :=
  g.usages.countP fun u => u.isOf b lock && u.holder.isSome

section Guarded

variable {O : Outlook}

/-- How many invocations use a lock, among all threads. -/
def used (O : Outlook) (trace : Trace μ) (b : BusId) (lock : LockId) : Nat :=
  (O.protocol.roll trace).total (Standing.uses b lock)

def held (O : Outlook) (trace : Trace μ) (b : BusId) (lock : LockId) : Nat :=
  (O.protocol.roll trace).total (Standing.holds b lock)

theorem usages_base (t : Turn) : (Outlook.base t).usages = [] := by
  rw [Standing.usages, Outlook.stack_base]
  rfl

theorem used_cons (trace : Trace μ) (t : Turn) (deed : Deed μ) (b : BusId) (lock : LockId) :
    used O ((t, deed) :: trace) b lock + (O.protocol.standing trace t).uses b lock =
      used O trace b lock +
        (O.protocol.next t (O.protocol.standing trace t) deed).uses b lock :=
  Roll.total_put _ _ (by rw [Standing.uses, usages_base]; rfl)

theorem held_cons (trace : Trace μ) (t : Turn) (deed : Deed μ) (b : BusId) (lock : LockId) :
    held O ((t, deed) :: trace) b lock + (O.protocol.standing trace t).holds b lock =
      held O trace b lock +
        (O.protocol.next t (O.protocol.standing trace t) deed).holds b lock :=
  Roll.total_put _ _ (by rw [Standing.holds, usages_base]; rfl)

section Next

variable {trace : Trace μ} {t : Turn} {deed : Deed μ} (before after : List Usage) {rest : List Usage}

/-- A deed changes as many uses as it changes for one thread. -/
theorem used_next (hbefore : (O.protocol.standing trace t).usages = before ++ rest)
    (hafter : (O.protocol.next t (O.protocol.standing trace t) deed).usages = after ++ rest)
    (b : BusId) (lock : LockId) :
    used O ((t, deed) :: trace) b lock + before.countP (·.isOf b lock) =
      used O trace b lock + after.countP (·.isOf b lock) := by
  have h := used_cons (O := O) trace t deed b lock
  rw [Standing.uses, Standing.uses, hbefore, hafter, List.countP_append, List.countP_append] at h
  omega

theorem held_next (hbefore : (O.protocol.standing trace t).usages = before ++ rest)
    (hafter : (O.protocol.next t (O.protocol.standing trace t) deed).usages = after ++ rest)
    (b : BusId) (lock : LockId) :
    held O ((t, deed) :: trace) b lock + before.countP (fun u => u.isOf b lock && u.holder.isSome) =
      held O trace b lock + after.countP (fun u => u.isOf b lock && u.holder.isSome) := by
  have h := held_cons (O := O) trace t deed b lock
  rw [Standing.holds, Standing.holds, hbefore, hafter, List.countP_append, List.countP_append] at h
  omega

end Next

theorem used_pos {trace : Trace μ} {t : Turn} {u : Usage}
    (hu : u ∈ (O.protocol.standing trace t).usages) : 0 < used O trace u.bus u.lock := by
  have hle : (O.protocol.standing trace t).uses u.bus u.lock ≤ used O trace u.bus u.lock :=
    Roll.le_total _ (by rw [Standing.uses, usages_base]; rfl)
  have hpos : 0 < (O.protocol.standing trace t).uses u.bus u.lock :=
    List.countP_pos_iff.mpr ⟨u, hu, by simp [Usage.isOf]⟩
  omega

theorem exists_usage {trace : Trace μ} {b : BusId} {lock : LockId} (h : 0 < used O trace b lock) :
    ∃ t, ∃ u ∈ (O.protocol.standing trace t).usages, u.bus = b ∧ u.lock = lock := by
  obtain ⟨t, ht⟩ := Roll.exists_of_total_pos (O.protocol.nodup_roll trace) h
  obtain ⟨u, hu, hof⟩ := List.countP_pos_iff.mp ht
  exact ⟨t, u, hu, of_decide_eq_true hof⟩

theorem held_pos {trace : Trace μ} {t : Turn} {u : Usage}
    (hu : u ∈ (O.protocol.standing trace t).usages) (hholder : u.holder.isSome) :
    0 < held O trace u.bus u.lock := by
  have hle : (O.protocol.standing trace t).holds u.bus u.lock ≤ held O trace u.bus u.lock :=
    Roll.le_total _ (by rw [Standing.holds, usages_base]; rfl)
  have hpos : 0 < (O.protocol.standing trace t).holds u.bus u.lock :=
    List.countP_pos_iff.mpr ⟨u, hu, by simp [Usage.isOf, hholder]⟩
  omega

/-- The locks of all buses know their users. A lock in use is in the table under its handler, and
is held by the thread that holds it. No lock was ever given to two handlers. -/
structure Guarded (O : Outlook) (trace : Trace μ) (w : World μ) : Prop where
  tracks : ∀ b, (w.bus b).locks.Tracks (used O trace b) (held O trace b)
  opened : ∀ t, ∀ u ∈ (O.protocol.standing trace t).usages, u.bus < w.buses.length
  entry : ∀ t, ∀ u ∈ (O.protocol.standing trace t).usages,
    (w.bus u.bus).locks.entries.get? u.handler = some u.lock
  holder : ∀ t, ∀ u ∈ (O.protocol.standing trace t).usages, ∀ name, u.holder = some name →
    ((w.bus u.bus).locks.lock u.lock).holder = some name
  given : ∀ t b handler lock, (t, .step (.share b handler) lock) ∈ trace →
    lock.serial < (w.bus b).locks.next ∧
      ∀ handler', (w.bus b).locks.entries.get? handler' = some lock → handler' = handler

theorem guarded_start (memory : μ) : Guarded O [] (.start memory) := by
  refine ⟨fun b => Locks.tracks_empty, ?_, ?_, ?_, nofun⟩ <;>
  · intro t u hu
    have hnone : (O.protocol.standing ([] : Trace μ) t).usages = [] := usages_base t
    rw [hnone] at hu
    cases hu

variable {trace : Trace μ} {w w' : World μ} {t : Turn} {deed : Deed μ}

/-- A deed that leaves the locks in use alone, where a lock counts as in use if it is before the
deed, or if it is afterwards. -/
theorem Guarded.next (h : Guarded O trace w) (hopen : w.buses.length ≤ w'.buses.length)
    (htracks : ∀ b, (w'.bus b).locks.Tracks (used O ((t, deed) :: trace) b)
      (held O ((t, deed) :: trace) b))
    {before : Trace μ} (hbefore : before = trace ∨ before = (t, deed) :: trace)
    (hspares : ∀ b, (w.bus b).locks.Spares (w'.bus b).locks (used O before b) (held O before b))
    (hnew : ∀ u ∈ (O.protocol.next t (O.protocol.standing trace t) deed).usages,
      u ∈ (O.protocol.standing trace t).usages ∨
        u.bus < w.buses.length ∧ (w'.bus u.bus).locks.entries.get? u.handler = some u.lock ∧
          ∀ name, u.holder = some name → ((w'.bus u.bus).locks.lock u.lock).holder = some name)
    (hgiven : ∀ b handler lock, deed = .step (.share b handler) lock →
      lock.serial < (w'.bus b).locks.next ∧
        ∀ handler', (w'.bus b).locks.entries.get? handler' = some lock → handler' = handler) :
    Guarded O ((t, deed) :: trace) w' := by
  have hcases : ∀ s, ∀ u ∈ (O.protocol.standing ((t, deed) :: trace) s).usages,
      u ∈ (O.protocol.standing trace s).usages ∨
        u.bus < w.buses.length ∧ (w'.bus u.bus).locks.entries.get? u.handler = some u.lock ∧
          ∀ name, u.holder = some name → ((w'.bus u.bus).locks.lock u.lock).holder = some name := by
    intro s u hu
    rw [Conduct.standing_cons] at hu
    split at hu
    · rename_i hs
      exact hs ▸ hnew u hu
    · exact .inl hu
  have husedNow : ∀ s u, u ∈ (O.protocol.standing trace s).usages →
      u ∈ (O.protocol.standing ((t, deed) :: trace) s).usages →
      0 < used O before u.bus u.lock ∧ (u.holder.isSome → 0 < held O before u.bus u.lock) := by
    intro s u hu hu'
    rcases hbefore with rfl | rfl
    · exact ⟨used_pos hu, held_pos hu⟩
    · exact ⟨used_pos hu', held_pos hu'⟩
  refine ⟨htracks, fun s u hu => ?_, fun s u hu => ?_, fun s u hu name hname => ?_,
    fun s b handler lock hmem => ?_⟩
  · rcases hcases s u hu with hold | hnew
    · exact Nat.lt_of_lt_of_le (h.opened s u hold) hopen
    · exact Nat.lt_of_lt_of_le hnew.1 hopen
  · rcases hcases s u hu with hold | hnew
    · exact (hspares u.bus).entries _ _ (husedNow s u hold hu).1 (h.entry s u hold)
    · exact hnew.2.1
  · rcases hcases s u hu with hold | hnew
    · rw [(hspares u.bus).holder _ ((husedNow s u hold hu).2 (hname ▸ rfl))]
      exact h.holder s u hold name hname
    · exact hnew.2.2 name hname
  · rcases List.mem_cons.mp hmem with heq | hold
    · cases heq
      exact hgiven b handler lock rfl
    · obtain ⟨hmade, hsole⟩ := h.given s b handler lock hold
      refine ⟨Nat.lt_of_lt_of_le hmade (hspares b).next, fun handler' hget => ?_⟩
      rcases (hspares b).made handler' lock hget with hentry | hlater
      · exact hsole handler' hentry
      · omega

/-- A deed that changes nobody's share. -/
theorem Guarded.next_of_usages_eq (h : Guarded O trace w)
    (hsame : (O.protocol.next t (O.protocol.standing trace t) deed).usages =
      (O.protocol.standing trace t).usages)
    (hopen : w.buses.length ≤ w'.buses.length)
    (htracks : ∀ b, (w'.bus b).locks.Tracks (used O trace b) (held O trace b))
    (hspares : ∀ b, (w.bus b).locks.Spares (w'.bus b).locks (used O trace b) (held O trace b))
    (hdeed : ∀ b handler lock, deed ≠ .step (.share b handler) lock) :
    Guarded O ((t, deed) :: trace) w' := by
  have hused : ∀ b, used O ((t, deed) :: trace) b = used O trace b :=
    fun b => funext fun lock => used_next [] [] rfl hsame b lock
  have hheld : ∀ b, held O ((t, deed) :: trace) b = held O trace b :=
    fun b => funext fun lock => held_next [] [] rfl hsame b lock
  refine h.next hopen (fun b => ?_) (.inl rfl) hspares ?_ ?_
  · rw [hused, hheld]
    exact htracks b
  · rw [hsame]
    exact fun u hu => .inl hu
  · exact fun b handler lock heq => absurd heq (hdeed b handler lock)

theorem Guarded.of_buses_eq (h : Guarded O trace w) (hbuses : w'.buses = w.buses) :
    Guarded O trace w' := by
  have hbus : ∀ b, w'.bus b = w.bus b := fun b => by rw [World.bus, World.bus, hbuses]
  constructor <;> simp only [hbus, hbuses]
  · exact h.tracks
  · exact h.opened
  · exact h.entry
  · exact h.holder
  · exact h.given

/-- Sweeping and reclaiming spare the locks in use. -/
theorem Step.locks_of_isLocking {s : Step μ} {reply : s.Reply} (hrun : s.run w = some (reply, w'))
    (haside : (Deed.step s reply).isLocking = false) (b : BusId) {used held : LockId → Nat}
    (h : (w.bus b).locks.Tracks used held) :
    (w'.bus b).locks.Tracks used held ∧ (w.bus b).locks.Spares (w'.bus b).locks used held := by
  have hset : ∀ (b' : BusId) (locks : Locks), w' = w.setLocks b' locks →
      (b' = b → locks.Tracks used held ∧ (w.bus b).locks.Spares locks used held) →
      (w'.bus b).locks.Tracks used held ∧ (w.bus b).locks.Spares (w'.bus b).locks used held := by
    rintro b' locks rfl hlocks
    rw [World.setLocks, World.bus_setBus_eq]
    split
    · rename_i hb
      exact hlocks hb.1
    · exact ⟨h, .refl⟩
  by_cases htouches : s.touchesLocks = false
  · rw [(run_effect hrun).locks htouches b]
    exact ⟨h, .refl⟩
  · cases s with
    | discard b' handler =>
      cases hrun
      refine hset b' _ rfl ?_
      rintro rfl
      exact h.discard handler
    | prune b' =>
      cases hrun
      refine hset b' _ rfl ?_
      rintro rfl
      exact h.prune _
    | share | acquire | release | unshare => cases haside
    | _ => exact absurd rfl htouches

/-- A deed that changes the locks of one bus. -/
theorem Guarded.at (h : Guarded O trace w) {b : BusId} (hopen : b < w.buses.length) {locks : Locks}
    (hworld : w' = w.setLocks b locks)
    (hused : ∀ b', b' ≠ b → used O ((t, deed) :: trace) b' = used O trace b')
    (hheld : ∀ b', b' ≠ b → held O ((t, deed) :: trace) b' = held O trace b')
    (htracks : locks.Tracks (used O ((t, deed) :: trace) b) (held O ((t, deed) :: trace) b))
    {before : Trace μ} (hbefore : before = trace ∨ before = (t, deed) :: trace)
    (hspares : (w.bus b).locks.Spares locks (used O before b) (held O before b))
    (hnew : ∀ u ∈ (O.protocol.next t (O.protocol.standing trace t) deed).usages,
      u ∈ (O.protocol.standing trace t).usages ∨
        u.bus = b ∧ locks.entries.get? u.handler = some u.lock ∧
          ∀ name, u.holder = some name → (locks.lock u.lock).holder = some name)
    (hgiven : ∀ b' handler lock, deed = .step (.share b' handler) lock →
      b' = b ∧ lock.serial < locks.next ∧
        ∀ handler', locks.entries.get? handler' = some lock → handler' = handler) :
    Guarded O ((t, deed) :: trace) w' := by
  subst hworld
  have hhere : ((w.setLocks b locks).bus b).locks = locks := by
    rw [World.setLocks, World.bus_setBus w b _ hopen]
  have hthere : ∀ b', b' ≠ b → ((w.setLocks b locks).bus b').locks = (w.bus b').locks := by
    intro b' hb
    rw [World.setLocks, World.bus_setBus_of_ne w _ (Ne.symm hb)]
  refine h.next (Nat.le_of_eq (World.length_setBus w b _).symm) ?_ hbefore ?_ ?_ ?_
  · intro b'
    by_cases hb : b' = b
    · subst hb
      rwa [hhere]
    · rw [hthere b' hb, hused b' hb, hheld b' hb]
      exact h.tracks b'
  · intro b'
    by_cases hb : b' = b
    · subst hb
      rwa [hhere]
    · rw [hthere b' hb]
      exact .refl
  · intro u hu
    refine (hnew u hu).imp_right ?_
    rintro ⟨rfl, hentry, hholder⟩
    rw [hhere]
    exact ⟨hopen, hentry, hholder⟩
  · intro b' handler lock hdeed
    obtain ⟨rfl, hlock⟩ := hgiven b' handler lock hdeed
    rwa [hhere]

/-- Where one count has one more, for one lock of one bus. -/
theorem eq_bump {count count' : BusId → LockId → Nat} {b : BusId} {lock : LockId}
    (h : ∀ b' lock', count' b' lock' = count b' lock' + if b = b' ∧ lock = lock' then 1 else 0) :
    count' b = Locks.bump (count b) lock ∧ ∀ b', b' ≠ b → count' b' = count b' := by
  constructor
  · funext lock'
    rw [h, Locks.bump]
    by_cases hlock : lock' = lock
    · rw [if_pos ⟨rfl, hlock.symm⟩, if_pos hlock]
    · rw [if_neg fun hboth => hlock hboth.2.symm, if_neg hlock]
      rfl
  · intro b' hb
    funext lock'
    rw [h, if_neg fun hboth => hb hboth.1.symm]
    rfl

theorem Step.run_share {b : BusId} {handler : HandlerKey} {lock : LockId}
    (h : (Step.share b handler).run w = some (lock, w')) :
    b < w.buses.length ∧ ((w.bus b).locks.share handler).1 = lock ∧
      w' = w.setLocks b ((w.bus b).locks.share handler).2 := by
  obtain ⟨bus, hbus, heq⟩ := Option.map_eq_some_iff.mp h
  rw [World.bus_of_getElem? hbus]
  exact ⟨(List.getElem?_eq_some_iff.mp hbus).1, (Prod.mk.inj heq).1, (Prod.mk.inj heq).2.symm⟩

section Locking

variable {b : BusId} {handler : HandlerKey} {lock : LockId} {rest : List Usage}

theorem Guarded.share (h : Guarded O trace w) (hrun : (Step.share b handler).run w = some (lock, w'))
    (hafter : (O.protocol.next t (O.protocol.standing trace t)
      (.step (.share b handler) lock)).usages =
        ⟨b, handler, lock, none⟩ :: (O.protocol.standing trace t).usages) :
    Guarded O ((t, .step (.share b handler) lock) :: trace) w' := by
  obtain ⟨hopen, rfl, rfl⟩ := Step.run_share hrun
  have hused := used_next [] [_] rfl hafter
  have hheld := held_next [] [_] rfl hafter
  obtain ⟨hhere, hthere⟩ := eq_bump fun b' lock' => by
    simpa [Usage.isOf, List.countP_singleton] using hused b' lock'
  replace hheld := fun b' => funext fun lock' => by simpa using hheld b' lock'
  obtain ⟨htracks, hspares, hentry⟩ := (h.tracks b).share handler
  refine h.at hopen rfl hthere (fun b' _ => hheld b') ?_ (.inl rfl) hspares ?_ ?_
  · rwa [hhere, hheld]
  · rw [hafter]
    intro u hu
    rcases List.mem_cons.mp hu with rfl | hold
    · exact .inr ⟨rfl, hentry, nofun⟩
    · exact .inl hold
  · rintro b' handler' lock' hdeed
    cases hdeed
    exact ⟨rfl, htracks.below _ _ hentry, fun handler' hget => htracks.apart _ _ _ hget hentry⟩

theorem Guarded.acquire (h : Guarded O trace w) {name : Thread}
    (hrun : (Step.acquire b lock name).run w = some ((), w'))
    (hbefore : (O.protocol.standing trace t).usages = ⟨b, handler, lock, none⟩ :: rest)
    (hafter : (O.protocol.next t (O.protocol.standing trace t)
      (.step (.acquire b lock name) ())).usages = ⟨b, handler, lock, some name⟩ :: rest) :
    Guarded O ((t, .step (.acquire b lock name) ()) :: trace) w' := by
  obtain ⟨locks, hacquire, heq⟩ := Option.map_eq_some_iff.mp hrun
  obtain ⟨-, rfl⟩ := Prod.mk.inj heq
  have hmem : ⟨b, handler, lock, none⟩ ∈ (O.protocol.standing trace t).usages :=
    hbefore ▸ List.mem_cons_self
  have hused := used_next [_] [_] hbefore hafter
  have hheld := held_next [_] [_] hbefore hafter
  replace hused := fun b' => funext fun lock' => by
    simpa [Usage.isOf, List.countP_singleton] using hused b' lock'
  obtain ⟨hhere, hthere⟩ := eq_bump fun b' lock' => by
    simpa [Usage.isOf, List.countP_singleton] using hheld b' lock'
  have hentry : (w.bus b).locks.entries.get? handler = some lock := h.entry t _ hmem
  obtain ⟨htracks, hspares, hholder⟩ := (h.tracks b).acquire (used_pos hmem) hacquire
  refine h.at (h.opened t _ hmem) rfl (fun b' _ => hused b') hthere ?_ (.inl rfl) hspares ?_ nofun
  · rwa [hhere, hused]
  · rw [hafter, hbefore]
    intro u hu
    rcases List.mem_cons.mp hu with rfl | hold
    · refine .inr ⟨rfl, hspares.entries _ _ (used_pos hmem) hentry, ?_⟩
      rintro name' ⟨⟩
      exact hholder
    · exact .inl (List.mem_cons_of_mem _ hold)

theorem Guarded.release (h : Guarded O trace w) {name : Thread}
    (hrun : (Step.release b lock).run w = some ((), w'))
    (hbefore : (O.protocol.standing trace t).usages = ⟨b, handler, lock, some name⟩ :: rest)
    (hafter : (O.protocol.next t (O.protocol.standing trace t)
      (.step (.release b lock) ())).usages = ⟨b, handler, lock, none⟩ :: rest) :
    Guarded O ((t, .step (.release b lock) ()) :: trace) w' := by
  obtain ⟨-, rfl⟩ := Prod.mk.inj (Option.some.inj hrun)
  have hmem : ⟨b, handler, lock, some name⟩ ∈ (O.protocol.standing trace t).usages :=
    hbefore ▸ List.mem_cons_self
  have hused := used_next [_] [_] hbefore hafter
  have hheld := held_next [_] [_] hbefore hafter
  replace hused := fun b' => funext fun lock' => by
    simpa [Usage.isOf, List.countP_singleton] using hused b' lock'
  obtain ⟨hhere, hthere⟩ := eq_bump fun b' lock' => by
    simpa [Usage.isOf, List.countP_singleton] using (hheld b' lock').symm
  have hentry : (w.bus b).locks.entries.get? handler = some lock := h.entry t _ hmem
  obtain ⟨htracks, hspares⟩ := (hhere ▸ h.tracks b).release (used_pos hmem)
  refine h.at (h.opened t _ hmem) rfl (fun b' _ => hused b') (fun b' hb => (hthere b' hb).symm) ?_
    (.inr rfl) (by rwa [hused]) ?_ nofun
  · rwa [hused]
  · rw [hafter, hbefore]
    intro u hu
    rcases List.mem_cons.mp hu with rfl | hold
    · exact .inr ⟨rfl, hspares.entries _ _ (used_pos hmem) hentry, nofun⟩
    · exact .inl (List.mem_cons_of_mem _ hold)

theorem Guarded.unshare (h : Guarded O trace w) (hrun : (Step.unshare b lock).run w = some ((), w'))
    (hbefore : (O.protocol.standing trace t).usages = ⟨b, handler, lock, none⟩ :: rest)
    (hafter : (O.protocol.next t (O.protocol.standing trace t)
      (.step (.unshare b lock) ())).usages = rest) :
    Guarded O ((t, .step (.unshare b lock) ()) :: trace) w' := by
  obtain ⟨-, rfl⟩ := Prod.mk.inj (Option.some.inj hrun)
  have hmem : ⟨b, handler, lock, none⟩ ∈ (O.protocol.standing trace t).usages :=
    hbefore ▸ List.mem_cons_self
  have hused := used_next [_] [] hbefore hafter
  have hheld := held_next [_] [] hbefore hafter
  replace hheld := fun b' => funext fun lock' => by simpa using hheld b' lock'
  obtain ⟨hhere, hthere⟩ := eq_bump fun b' lock' => by
    simpa [Usage.isOf, List.countP_singleton] using (hused b' lock').symm
  obtain ⟨htracks, hspares⟩ := (hhere ▸ h.tracks b).unshare
  refine h.at (h.opened t _ hmem) rfl (fun b' hb => (hthere b' hb).symm) (fun b' _ => hheld b') ?_
    (.inr rfl) (by rwa [hheld]) ?_ nofun
  · rwa [hheld]
  · rw [hafter, hbefore]
    exact fun u hu => .inl (List.mem_cons_of_mem _ hu)

end Locking

theorem Guarded.step {s : Step μ} {reply : s.Reply} (h : Guarded O trace w)
    (hallowed : O.protocol.allows (O.protocol.standing trace t) s)
    (hrun : s.run w = some (reply, w')) : Guarded O ((t, .step s reply) :: trace) w' := by
  have hmoves : Usage.Moves (.step s reply) (O.protocol.standing trace t).usages
      (O.protocol.next t (O.protocol.standing trace t) (.step s reply)).usages :=
    (Standing.step?_moves (Outlook.step?_of_allows hallowed reply)).usages
  generalize hbefore : (O.protocol.standing trace t).usages = before at hmoves
  generalize hafter :
    (O.protocol.next t (O.protocol.standing trace t) (.step s reply)).usages = after at hmoves
  cases hmoves with
  | same aside =>
    have hlocks := fun b => Step.locks_of_isLocking hrun aside b (h.tracks b)
    refine h.next_of_usages_eq (hafter.trans hbefore.symm) (Step.run_effect hrun).buses.length_le
      (fun b => (hlocks b).1) (fun b => (hlocks b).2) ?_
    rintro b handler lock hdeed
    rw [hdeed] at aside
    cases aside
  | share => exact h.share hrun (hbefore ▸ hafter)
  | acquire => exact h.acquire hrun hbefore hafter
  | release => exact h.release hrun hbefore hafter
  | unshare => exact h.unshare hrun hbefore hafter

theorem guarded {trace : Trace μ} {w : World μ} (h : O.protocol.Lawful trace w) :
    Guarded O trace w := by
  induction h with
  | start memory => exact guarded_start memory
  | step before allowed world ih => exact ih.step allowed world
  | @took _ _ _ _ _ job _ _ _ world ih =>
    refine .of_buses_eq (ih.next_of_usages_eq ?_ (Nat.le_refl _) ih.tracks (fun _ => .refl) nofun)
      world.1
    cases job <;> rfl
  | woke _ _ _ world ih =>
    exact .of_buses_eq (ih.next_of_usages_eq rfl (Nat.le_refl _) ih.tracks (fun _ => .refl) nofun)
      world.buses
  | rested _ world ih => exact ih.of_buses_eq world.buses

end Guarded

end PubSub
