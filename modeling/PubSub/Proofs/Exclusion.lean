import PubSub.Proofs.LockUse
import PubSub.Proofs.Names

/-!
# Mutual exclusion

An invocation of an exclusive handler runs only while its thread holds the lock that the table has
for the handler, and it has this lock from the moment it asks for it until it gives it back. So
whatever posts, registrations and unregistrations threads perform, no two threads are ever inside
the same exclusive handler.
-/
namespace PubSub

variable {μ α : Type}

namespace Deed

/-- A handler starts, for an invocation on a thread of this name. -/
def calls (name : Thread) (i : Invocation) : Deed μ → Bool
  | .step (.record name' (.called i' _)) _ => name' = name ∧ i' = i
  | _ => false

def ends (name : Thread) (i : Invocation) : Deed μ → Bool
  | .step (.record name' (.ended i' _)) _ => name' = name ∧ i' = i
  | _ => false

/-- An invocation of a handler gets a share of this lock. -/
def shares (b : BusId) (handler : HandlerKey) (lock : LockId) : Deed μ → Bool
  | .step (.share b' handler') lock' => b' = b ∧ handler' = handler ∧ lock' = lock
  | _ => false

/-- An invocation of any handler gets a share of this lock. -/
def sharesAny (b : BusId) (lock : LockId) : Deed μ → Bool
  | .step (.share b' _) lock' => b' = b ∧ lock' = lock
  | _ => false

/-- An invocation gives its share of this lock back. -/
def unshares (b : BusId) (lock : LockId) : Deed μ → Bool
  | .step (.unshare b' lock') _ => b' = b ∧ lock' = lock
  | _ => false

theorem sharesAny_iff {deed : Deed μ} {b : BusId} {lock : LockId} :
    deed.sharesAny b lock = true ↔ ∃ handler, deed = .step (.share b handler) lock := by
  constructor
  · intro h
    unfold sharesAny at h
    split at h
    · obtain ⟨rfl, rfl⟩ := of_decide_eq_true h
      exact ⟨_, rfl⟩
    · cases h
  · rintro ⟨handler, rfl⟩
    exact decide_eq_true ⟨rfl, rfl⟩

theorem shares_iff {deed : Deed μ} {b : BusId} {handler : HandlerKey} {lock : LockId} :
    deed.shares b handler lock = true ↔ deed = .step (.share b handler) lock := by
  constructor
  · intro h
    unfold shares at h
    split at h
    · obtain ⟨rfl, rfl, rfl⟩ := of_decide_eq_true h
      rfl
    · cases h
  · rintro rfl
    exact decide_eq_true ⟨rfl, rfl, rfl⟩

end Deed

namespace Trace

/-- How often a thread has done a deed of this kind. -/
def times (trace : Trace μ) (t : Turn) (kind : Deed μ → Bool) : Nat :=
  trace.countP fun (u, deed) => u = t && kind deed

theorem times_cons_self (trace : Trace μ) (t : Turn) (deed : Deed μ) (kind : Deed μ → Bool) :
    times ((t, deed) :: trace) t kind = trace.times t kind + (kind deed).toNat := by
  rw [times, List.countP_cons]
  cases hkind : kind deed <;> simp [hkind, times]

theorem times_cons_of_ne (trace : Trace μ) {t u : Turn} (hne : u ≠ t) (deed : Deed μ)
    (kind : Deed μ → Bool) : times ((u, deed) :: trace) t kind = trace.times t kind := by
  rw [times, List.countP_cons]
  simp [hne, times]

/-- How often a deed of this kind has been done by anybody. -/
def total (trace : Trace μ) (kind : Deed μ → Bool) : Nat := trace.countP fun (_, deed) => kind deed

theorem total_cons (trace : Trace μ) (t : Turn) (deed : Deed μ) (kind : Deed μ → Bool) :
    total ((t, deed) :: trace) kind = trace.total kind + (kind deed).toNat := by
  rw [total, List.countP_cons]
  cases hkind : kind deed <;> simp [hkind, total]

/-- A thread, under one of its names, has started a handler that has not ended yet. -/
def Inside (trace : Trace μ) (t : Turn) (name : Thread) (i : Invocation) : Prop :=
  trace.times t (Deed.ends name i) < trace.times t (Deed.calls name i)

instance (trace : Trace μ) (t : Turn) (name : Thread) (i : Invocation) :
    Decidable (trace.Inside t name i) := Nat.decLt _ _

/-- Some invocation of the handler has a share of this lock, whether it runs or waits. -/
def Uses (trace : Trace μ) (b : BusId) (handler : HandlerKey) (lock : LockId) : Prop :=
  trace.total (Deed.unshares b lock) < trace.total (Deed.shares b handler lock)

instance (trace : Trace μ) (b : BusId) (handler : HandlerKey) (lock : LockId) :
    Decidable (trace.Uses b handler lock) := Nat.decLt _ _

end Trace

def Hand.runs (name : Thread) (i : Invocation) : Hand → Bool
  | ⟨i', .running name', _⟩ => name' = name ∧ i' = i
  | _ => false

theorem Hand.phase_of_runs {hand : Hand} {name : Thread} {i : Invocation}
    (h : hand.runs name i = true) : hand.phase = .running name ∧ hand.invocation = i := by
  unfold runs at h
  split at h
  · obtain ⟨rfl, rfl⟩ := of_decide_eq_true h
    exact ⟨rfl, rfl⟩
  · cases h

def Frame.runs (name : Thread) (i : Invocation) (f : Frame) : Bool := f.hand?.any (Hand.runs name i)

theorem Frame.runs_focus (name : Thread) (i : Invocation) (f : Frame) :
    f.focus.runs name i = f.runs name i := by
  unfold focus
  split <;> rfl

theorem Frame.runs_withHand (name : Thread) (i : Invocation) (f : Frame) (hand : Hand) :
    (f.withHand hand).runs name i = hand.runs name i := by
  rw [runs, hand?_withHand]
  rfl

/-- How many times a list of frames is in the middle of an invocation. -/
def running (name : Thread) (i : Invocation) (stack : List Frame) : Nat :=
  stack.countP (Frame.runs name i)

theorem running_cons (name : Thread) (i : Invocation) (f : Frame) (rest : List Frame) :
    running name i (f :: rest) = running name i rest + (f.runs name i).toNat := by
  rw [running, List.countP_cons]
  cases f.runs name i <;> rfl

theorem Hand.Moves.runs {hand hand' : Hand} {deed : Deed μ} (h : hand.Moves deed hand')
    (name : Thread) (i : Invocation) :
    (hand'.runs name i).toNat + (deed.ends name i).toNat =
      (hand.runs name i).toNat + (deed.calls name i).toNat := by
  cases h with
  | @report _ phase =>
    cases phase <;> rfl
  | finish => simp [Hand.runs, Deed.ends, Deed.calls]
  | call => simp [Hand.runs, Deed.ends, Deed.calls]
  | callHolding => simp [Hand.runs, Deed.ends, Deed.calls]
  | _ => rfl

/-- A quiet deed neither starts nor ends a handler. -/
theorem Deed.runs_of_isQuiet {deed : Deed μ} (h : deed.isQuiet = true) (name : Thread)
    (i : Invocation) : deed.calls name i = false ∧ deed.ends name i = false := by
  cases deed with
  | step s reply =>
    cases s with
    | record t o => cases o <;> first | exact ⟨rfl, rfl⟩ | cases h
    | _ => exact ⟨rfl, rfl⟩
  | _ => exact ⟨rfl, rfl⟩

theorem Deed.runs_of_accepted? {deed : Deed μ} {i' : Invocation} (h : deed.accepted? = some i')
    (name : Thread) (i : Invocation) : deed.calls name i = false ∧ deed.ends name i = false := by
  obtain ⟨_, _, _, -, rfl | rfl⟩ := eq_of_accepted? h <;> exact ⟨rfl, rfl⟩

theorem Deed.runs_of_taken? {deed : Deed μ} {i' : Invocation} (h : deed.taken? = some i')
    (name : Thread) (i : Invocation) : deed.calls name i = false ∧ deed.ends name i = false := by
  obtain ⟨_, _, -, rfl | ⟨_, _, rfl⟩⟩ := eq_of_taken? h <;> exact ⟨rfl, rfl⟩

theorem Standing.Moves.running {g g' : Standing} {deed : Deed μ} (h : g.Moves g' deed)
    (name : Thread) (i : Invocation) :
    running name i g'.stack + (deed.ends name i).toNat =
      running name i g.stack + (deed.calls name i).toNat := by
  cases h with
  | quiet quiet _ stack =>
    obtain ⟨hcalls, hends⟩ := Deed.runs_of_isQuiet quiet name i
    rw [stack, hcalls, hends]
  | serial _ stack => rw [stack]; rfl
  | select _ _ _ _ stack => rw [stack]; rfl
  | @hand _ top top' rest hand hand' before focus held moves _ stack =>
    have htop : top.runs name i = hand.runs name i := by
      have htop' : top'.runs name i = hand.runs name i := by
        rw [Frame.runs, held]
        rfl
      rcases focus with rfl | rfl
      · exact htop'
      · rw [← htop', Frame.runs_focus]
    have hmoves := moves.runs name i
    rw [stack, before, running_cons, running_cons, Frame.runs_withHand, htop]
    omega
  | submit before _ stack => rw [before, stack]; rfl
  | accepted accepted before _ stack =>
    obtain ⟨hcalls, hends⟩ := Deed.runs_of_accepted? accepted name i
    rw [before, stack, hcalls, hends]
    rfl
  | refuse before _ stack => rw [before, stack]; rfl
  | drop before _ stack => rw [before, stack]; rfl
  | settlePost before _ stack => rw [before, stack]; rfl
  | @settleJob _ i' phase isOver before _ =>
    rw [before]
    cases phase <;> first | rfl | cases isOver
  | @answer _ _ _ hand todo between before _ =>
    rw [before]
    cases hand with
    | none => rfl
    | some hand =>
      obtain ⟨i', r, told, rfl⟩ := between hand rfl
      rfl
  | take taken _ stack =>
    obtain ⟨hcalls, hends⟩ := Deed.runs_of_taken? taken name i
    rw [stack, hcalls, hends]
    rfl

theorem Usage.isOf_cons (b : BusId) (lock : LockId) (u : Usage) (rest : List Usage) :
    (u :: rest).countP (·.isOf b lock) = rest.countP (·.isOf b lock) + (u.isOf b lock).toNat := by
  rw [List.countP_cons]
  cases u.isOf b lock <;> rfl

theorem Usage.Moves.uses {deed : Deed μ} {before after : List Usage}
    (h : Usage.Moves deed before after) (b : BusId) (lock : LockId) :
    after.countP (·.isOf b lock) + (deed.unshares b lock).toNat =
      before.countP (·.isOf b lock) + (deed.sharesAny b lock).toNat := by
  cases h with
  | same aside =>
    cases deed with
    | step s reply => cases s <;> first | rfl | cases aside
    | _ => rfl
  | share => rw [isOf_cons]; rfl
  | acquire => rw [isOf_cons, isOf_cons]; rfl
  | release => rw [isOf_cons, isOf_cons]; rfl
  | unshare => rw [isOf_cons]; rfl

section Moving

variable {O : Outlook} {trace : Trace μ}

/-- A handler has started as often as it has ended and is running. -/
theorem times_calls (h : Moving O trace) (t : Turn) (name : Thread) (i : Invocation) :
    trace.times t (Deed.calls name i) =
      trace.times t (Deed.ends name i) + running name i (O.protocol.standing trace t).stack := by
  refine h.stands (P := fun t trace g =>
    trace.times t (Deed.calls name i) = trace.times t (Deed.ends name i) + running name i g.stack)
    ?_ ?_ ?_ t
  · intro t
    rw [Outlook.stack_base]
    rfl
  · intro t trace g g' deed hold hmoves _
    have hmoves := hmoves.running name i
    rw [Trace.times_cons_self, Trace.times_cons_self]
    omega
  · intro t u trace g deed hne hold
    rwa [Trace.times_cons_of_ne trace hne, Trace.times_cons_of_ne trace hne]

/-- A running invocation of an exclusive handler holds a lock. -/
def Hand.Holds (hand : Hand) : Prop :=
  ∀ name, hand.phase = .running name → hand.invocation.subscription.concurrent = false →
    ∃ lock, hand.grip = some (lock, some name)

theorem Hand.Moves.holds {hand hand' : Hand} {deed : Deed μ} (h : hand.Moves deed hand')
    (hold : hand.Holds) : hand'.Holds := by
  intro name hrunning hexclusive
  cases h with
  | call concurrent => exact absurd (concurrent.symm.trans hexclusive) nofun
  | callHolding => cases hrunning; exact ⟨_, rfl⟩
  | @report i phase _ _ _ _ isOver => cases phase <;> cases isOver <;> cases hrunning
  | _ => cases hrunning

theorem hands_hold (h : Moving O trace) (t : Turn) :
    ∀ hand ∈ (O.protocol.standing trace t).stack.filterMap Frame.hand?, hand.Holds := by
  refine h.stands (P := fun _ _ g => ∀ hand ∈ g.stack.filterMap Frame.hand?, hand.Holds)
    ?_ ?_ ?_ t
  · intro t hand hmem
    rw [Outlook.stack_base] at hmem
    cases hmem
  · intro t trace g g' deed hold hmoves _
    refine hmoves.forall_hands ?_ (fun _ _ hold moves => moves.holds hold) hold
    exact fun hand hidle name hrunning => absurd hrunning (hidle name)
  · exact fun _ _ _ _ _ _ hold => hold

/-- A lock has been shared out as often as it has come back and is in use. -/
theorem total_sharesAny (h : Moving O trace) (b : BusId) (lock : LockId) :
    trace.total (Deed.sharesAny b lock) =
      trace.total (Deed.unshares b lock) + used O trace b lock := by
  induction h with
  | start => rfl
  | @deed trace t deed before moves _ ih =>
    have hcons := used_cons (O := O) trace t deed b lock
    have hmoves := moves.usages.uses b lock
    rw [Standing.uses, Standing.uses] at hcons
    rw [Trace.total_cons, Trace.total_cons]
    omega

end Moving

section Lawful

variable {O : Outlook} {trace : Trace μ} {w : World μ}

/-- A thread inside an exclusive handler holds the lock that the table has for it. -/
theorem Trace.Inside.usage (h : Moving O trace) {t : Turn} {name : Thread} {i : Invocation}
    (hinside : trace.Inside t name i) (hexclusive : i.subscription.concurrent = false) :
    ∃ lock, ⟨i.bus, i.subscription.id, lock, some name⟩ ∈ (O.protocol.standing trace t).usages := by
  have hcount := times_calls h t name i
  have hpos : 0 < running name i (O.protocol.standing trace t).stack := by
    rw [Trace.Inside] at hinside
    omega
  obtain ⟨f, hf, hruns⟩ := List.countP_pos_iff.mp hpos
  obtain ⟨hand, hhand, hruns⟩ := (Option.any_eq_true _ _).mp hruns
  obtain ⟨hphase, rfl⟩ := Hand.phase_of_runs hruns
  obtain ⟨lock, hgrip⟩ := hands_hold h t hand (List.mem_filterMap.mpr ⟨f, hf, hhand⟩) name hphase
    hexclusive
  refine ⟨lock, List.mem_filterMap.mpr ⟨f, hf, ?_⟩⟩
  rw [Frame.usage?, hhand, Option.bind_some]
  obtain ⟨i, phase, grip⟩ := hand
  cases hgrip
  rfl

/-- Only one handler ever gets shares of a lock in use. -/
theorem Guarded.total_shares (h : Guarded O trace w) {t : Turn} {u : Usage}
    (hu : u ∈ (O.protocol.standing trace t).usages) :
    trace.total (Deed.shares u.bus u.handler u.lock) = trace.total (Deed.sharesAny u.bus u.lock) := by
  refine List.countP_congr ?_
  rintro ⟨t', deed⟩ hmem
  rw [Deed.shares_iff, Deed.sharesAny_iff]
  constructor
  · exact fun hdeed => ⟨_, hdeed⟩
  · rintro ⟨handler, rfl⟩
    have hhandler := (h.given t' u.bus handler u.lock hmem).2 u.handler (h.entry t u hu)
    rw [hhandler]

theorem Guarded.uses (hmoving : Moving O trace) (h : Guarded O trace w) {t : Turn} {u : Usage}
    (hu : u ∈ (O.protocol.standing trace t).usages) : trace.Uses u.bus u.handler u.lock := by
  have hcount := total_sharesAny hmoving u.bus u.lock
  have hpos := used_pos hu
  rw [Trace.Uses, h.total_shares hu]
  omega

/-- A lock of which an invocation has a share is in the table. -/
theorem Trace.Uses.entry (hmoving : Moving O trace) (hguarded : Guarded O trace w) {b : BusId}
    {handler : HandlerKey} {lock : LockId} (huses : trace.Uses b handler lock) :
    (w.bus b).locks.entries.get? handler = some lock := by
  have hmono : trace.total (Deed.shares b handler lock) ≤ trace.total (Deed.sharesAny b lock) :=
    List.countP_mono_left fun _ _ hshares =>
      Deed.sharesAny_iff.mpr ⟨handler, Deed.shares_iff.mp hshares⟩
  have hcount := total_sharesAny hmoving b lock
  have hpos : 0 < used O trace b lock := by
    rw [Trace.Uses] at huses
    omega
  obtain ⟨t, u, hu, rfl, rfl⟩ := exists_usage hpos
  have hentry := hguarded.entry t u hu
  obtain ⟨⟨t', deed⟩, hmem, hshares⟩ := List.countP_pos_iff.mp (Nat.zero_lt_of_lt huses)
  have hgiven := hguarded.given t' u.bus handler u.lock (Deed.shares_iff.mp hshares ▸ hmem)
  rwa [← hgiven.2 u.handler hentry]

/-- A thread acquires locks under its own names. -/
theorem Standing.holder_mem_names {g g' : Standing} {s : Step μ} {reply : s.Reply}
    (h : g.step? s reply = some g') {name : Thread}
    (hold : ∀ u ∈ g.usages, u.holder = some name → name ∈ g.names) :
    ∀ u ∈ g'.usages, u.holder = some name → name ∈ g.names := by
  have hmoves := (Standing.step?_moves h).usages
  generalize g'.usages = after at hmoves
  generalize g.usages = before at hmoves hold
  intro u hu hname
  cases hmoves with
  | same => exact hold u hu hname
  | share =>
    rcases List.mem_cons.mp hu with rfl | hrest
    · cases hname
    · exact hold u hrest hname
  | acquire =>
    rcases List.mem_cons.mp hu with rfl | hrest
    · cases hname
      rw [Standing.step?] at h
      split at h
      · assumption
      · cases h
    · exact hold u (List.mem_cons_of_mem _ hrest) hname
  | release =>
    rcases List.mem_cons.mp hu with rfl | hrest
    · cases hname
    · exact hold u (List.mem_cons_of_mem _ hrest) hname
  | unshare => exact hold u (List.mem_cons_of_mem _ hu) hname

theorem holders_named (h : O.protocol.Lawful trace w) (name : Thread) : ∀ t,
    ∀ u ∈ (O.protocol.standing trace t).usages, u.holder = some name →
      name ∈ (O.protocol.standing trace t).names := by
  induction h with
  | start memory =>
    intro t u hu
    have hnone : (O.protocol.standing ([] : Trace μ) t).usages = [] := usages_base t
    rw [hnone] at hu
    cases hu
  | @step trace w w' t s reply before allowed world ih =>
    intro t' u hu hname
    rw [Conduct.standing_cons] at hu ⊢
    split at hu
    · rename_i ht
      subst ht
      rw [if_pos rfl]
      exact Outlook.mem_names_after
        (Standing.holder_mem_names (Outlook.step?_of_allows allowed reply) (ih t') u hu hname)
    · rename_i ht
      rw [if_neg ht]
      exact ih t' u hu hname
  | @took _ _ _ e i job _ _ _ _ ih =>
    intro t u hu hname
    rw [Conduct.standing_cons] at hu ⊢
    split at hu
    · rename_i ht
      rw [if_pos ht]
      refine ih (.worker e i) u ?_ hname
      cases job <;> exact hu
    · rename_i ht
      rw [if_neg ht]
      exact ih t u hu hname
  | @woke _ _ _ n _ _ _ _ _ ih =>
    intro t u hu hname
    rw [Conduct.standing_cons] at hu ⊢
    split at hu
    · rename_i ht
      rw [if_pos ht]
      exact List.mem_append_right _ (ih (.task n) u hu hname)
    · rename_i ht
      rw [if_neg ht]
      exact ih t u hu hname
  | rested before world ih => exact ih

end Lawful

/-- Whatever the order of turns: two threads that are inside the same exclusive handler of a bus are
one and the same. A lock of which a running or waiting invocation has a share stays in the table,
so nobody who asks for the handler's lock gets another one. A thread that is inside the handler has
a share of the lock and holds it. -/
theorem exclusive_handlers_never_overlap {β : Behaviour μ} {depth : Nat} {memory : μ}
    {body : Body μ α} {trace : Trace μ} {m : Machine μ α}
    (h : Run β depth memory body trace m) :
    (∀ t t' name name' i i', trace.Inside t name i → trace.Inside t' name' i' →
      i.subscription.concurrent = false → i'.subscription.concurrent = false →
      i.bus = i'.bus → i.subscription.id = i'.subscription.id → t = t' ∧ name = name') ∧
    (∀ b handler lock, trace.Uses b handler lock →
      (m.world.bus b).locks.entries.get? handler = some lock ∧
      ∀ lock' w, (Step.share b handler).run m.world = some (lock', w) → lock' = lock) ∧
    ∀ t name i, trace.Inside t name i → i.subscription.concurrent = false →
      ∃ lock, trace.Uses i.bus i.subscription.id lock ∧
        ((m.world.bus i.bus).locks.lock lock).holder = some name := by
  obtain ⟨hlawful, -⟩ := h.protocol
  have hmoving := moving hlawful
  have hguarded := guarded hlawful
  refine ⟨?_, ?_, ?_⟩
  · intro t t' name name' i i' hinside hinside' hexclusive hexclusive' hbus hhandler
    obtain ⟨lock, hu⟩ := hinside.usage hmoving hexclusive
    obtain ⟨lock', hu'⟩ := hinside'.usage hmoving hexclusive'
    rw [← hbus, ← hhandler] at hu'
    have hlock : lock = lock' :=
      Option.some.inj ((hguarded.entry t _ hu).symm.trans (hguarded.entry t' _ hu'))
    subst hlock
    have hname : name = name' := Option.some.inj
      ((hguarded.holder t _ hu name rfl).symm.trans (hguarded.holder t' _ hu' name' rfl))
    subst hname
    exact ⟨(named hlawful).bearer_unique (holders_named hlawful name t _ hu rfl)
      (holders_named hlawful name t' _ hu' rfl), rfl⟩
  · intro b handler lock huses
    have hentry := huses.entry hmoving hguarded
    refine ⟨hentry, fun lock' w hrun => ?_⟩
    obtain ⟨-, rfl, -⟩ := Step.run_share hrun
    rw [Locks.share, hentry]
  · intro t name i hinside hexclusive
    obtain ⟨lock, hu⟩ := hinside.usage hmoving hexclusive
    exact ⟨lock, hguarded.uses hmoving hu, hguarded.holder t _ hu name rfl⟩

/-- A clock strikes and is unregistered while it does; another thread, which posted before that, still
waits to make it strike. The sweep leaves the lock in the table. -/
theorem exclusive_handlers_never_overlap_on_sweep :
    let tick : Event := ⟨⟨"Tick", "Tick", 0⟩, 0, ""⟩
    let clock : Subscriber := ⟨⟨"Clock", 0⟩, "clock", [⟨"strike", false, .one .root, ⟨0⟩⟩]⟩
    let strike : Subscription := ⟨⟨clock.owner, 0⟩, "clock", "strike", .root, false, ⟨0⟩⟩
    let i : Invocation := ⟨0, 0, 0, strike, tick⟩
    let β : Behaviour Unit := {
      handle _ _ := .step (.startTask ⟨1⟩) fun _ =>
        .step (.unregister 0 clock.owner "clock") fun _ => .done .fine
      observe _ _ := .done none
      work _ := .step (.post 0 tick) fun _ => .done none }
    let body : Body Unit Unit := .step (.openBus .standard .publisher) fun b =>
      .step (.register b clock) fun _ => .step (.post b tick) fun _ => .done ()
    ∃ trace m, Run β 2 () body trace m ∧ trace.total (Deed.shares 0 strike.id ⟨0⟩) = 2 ∧
      (m.world.bus 0).roster.contains clock.owner = false ∧ trace.Inside (.caller 0) .main i ∧
      (∀ t name i', trace.Inside t name i' → i'.subscription.concurrent = false → 0 = i'.bus →
        strike.id = i'.subscription.id → .caller 0 = t ∧ .main = name) ∧
      (m.world.bus 0).locks.entries.get? strike.id = some ⟨0⟩ ∧
      ∃ lock, trace.Uses 0 strike.id lock ∧
        ((m.world.bus 0).locks.lock lock).holder = some .main := by
  intro tick clock strike i β body
  let turns : List Turn := List.replicate 18 (.caller 0) ++ List.replicate 9 (.task 1) ++
    List.replicate 2 (.caller 0)
  have hseen : ((Machine.start β 2 () body).play β 2 turns).any (fun (trace, m) =>
      trace.total (Deed.shares 0 strike.id ⟨0⟩) = 2 ∧
      (m.world.bus 0).roster.contains clock.owner = false ∧ trace.Inside (.caller 0) .main i ∧
      trace.Uses 0 strike.id ⟨0⟩) = true := by
    decide +kernel
  obtain ⟨trace, m, hrun, hseen⟩ := Run.exists_of_play hseen
  obtain ⟨hshares, hgone, hinside, huses⟩ := of_decide_eq_true hseen
  obtain ⟨hsame, hkept, hheld⟩ := exclusive_handlers_never_overlap hrun
  exact ⟨trace, m, hrun, hshares, hgone, hinside,
    fun t name i' hinside' => hsame _ t _ name i i' hinside hinside' rfl,
    (hkept _ _ _ huses).1, hheld _ _ i hinside rfl⟩

end PubSub
