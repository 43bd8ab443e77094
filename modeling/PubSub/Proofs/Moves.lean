import PubSub.Proofs.Grounds

/-!
# Moves

Everything that the protocol lets a thread do with what it has in hand, case by case.
-/
namespace PubSub

variable {μ : Type}

/-- The handler has ended, or the invocation is lost. -/
def Phase.isOver : Phase → Bool
  | .ended _ _ => true
  | .lost _ _ => true
  | _ => false

/-- What can become of an invocation in hand. -/
inductive Hand.Moves : Deed μ → Hand → Hand → Prop where
  | share {i : Invocation} {lock : LockId} (exclusive : i.subscription.concurrent = false) :
      Moves (.step (.share i.bus i.subscription.id) lock) ⟨i, .taken, none⟩
        ⟨i, .taken, some (lock, none)⟩
  | acquire {i : Invocation} {lock : LockId} {t : Thread} :
      Moves (.step (.acquire i.bus lock t) ()) ⟨i, .taken, some (lock, none)⟩
        ⟨i, .taken, some (lock, some t)⟩
  | call {i : Invocation} {t : Thread} {object : Object}
      (concurrent : i.subscription.concurrent = true) :
      Moves (.step (.record t (.called i object)) ()) ⟨i, .taken, none⟩ ⟨i, .running t, none⟩
  | callHolding {i : Invocation} {lock : LockId} {t : Thread} {object : Object} :
      Moves (.step (.record t (.called i object)) ()) ⟨i, .taken, some (lock, some t)⟩
        ⟨i, .running t, some (lock, some t)⟩
  | finish {i : Invocation} {t : Thread} {r : Reaction} {grip : Option (LockId × Option Thread)} :
      Moves (.step (.record t (.ended i r)) ()) ⟨i, .running t, grip⟩ ⟨i, .ended r 0, grip⟩
  | release {i : Invocation} {r : Reaction} {told : Nat} {lock : LockId} {t : Thread} :
      Moves (.step (.release i.bus lock) ()) ⟨i, .ended r told, some (lock, some t)⟩
        ⟨i, .ended r told, some (lock, none)⟩
  | unshare {i : Invocation} {r : Reaction} {told : Nat} {lock : LockId} :
      Moves (.step (.unshare i.bus lock) ()) ⟨i, .ended r told, some (lock, none)⟩
        ⟨i, .ended r told, none⟩
  | report {i : Invocation} {phase : Phase} {t : Thread} {place : Nat} {observer : Observer}
      {failure : Failure} (isOver : phase.isOver = true) (next : place = phase.told) :
      Moves (.step (.record t (.reported i place observer failure)) ()) ⟨i, phase, none⟩
        ⟨i, phase.withTold (place + 1), none⟩

def Frame.withHand : Frame → Hand → Frame
  | .post id _ todo, hand => .post id (some hand) todo
  | .job _, hand => .job hand

theorem Frame.hand?_withHand (f : Frame) (hand : Hand) : (f.withHand hand).hand? = some hand := by
  cases f <;> rfl

theorem Frame.onHand_eq_some {f : Frame} {change : Hand → Option Hand} {frames : List Frame}
    (h : f.onHand change = some frames) :
    ∃ hand hand', f.hand? = some hand ∧ change hand = some hand' ∧ frames = [f.withHand hand'] := by
  cases f with
  | post id hand todo =>
    cases hand with
    | none => cases h
    | some hand =>
      obtain ⟨hand', hchange, rfl⟩ := Option.map_eq_some_iff.mp h
      exact ⟨hand, hand', rfl, hchange, rfl⟩
  | job hand =>
    obtain ⟨hand', hchange, rfl⟩ := Option.map_eq_some_iff.mp h
    exact ⟨hand, hand', rfl, hchange, rfl⟩

/-- The invocation that an executor accepts. -/
def Deed.accepted? : Deed μ → Option Invocation
  | .step (.offer _ (.delivery d _)) true => some d.invocation
  | .step (.send _ (.delivery d _)) true => some d.invocation
  | _ => none

/-- The invocation that a thread takes from an executor. -/
def Deed.taken? : Deed μ → Option Invocation
  | .took (.delivery d _) => some d.invocation
  | .step (.pick _ _) (some (.delivery d _)) => some d.invocation
  | _ => none

namespace Deed

variable {deed : Deed μ} {i : Invocation}

theorem eq_of_accepted? (h : deed.accepted? = some i) :
    ∃ e d executor, d.invocation = i ∧ (deed = .step (.offer e (.delivery d executor)) true ∨
      deed = .step (.send e (.delivery d executor)) true) := by
  unfold accepted? at h
  split at h <;> cases h
  · exact ⟨_, _, _, rfl, .inl rfl⟩
  · exact ⟨_, _, _, rfl, .inr rfl⟩

theorem eq_of_taken? (h : deed.taken? = some i) :
    ∃ d executor, d.invocation = i ∧ (deed = .took (.delivery d executor) ∨
      ∃ e place, deed = .step (.pick e place) (some (.delivery d executor))) := by
  unfold taken? at h
  split at h <;> cases h
  · exact ⟨_, _, rfl, .inl rfl⟩
  · exact ⟨_, _, rfl, .inr ⟨_, _, rfl⟩⟩

end Deed

/-- Deeds that leave everything in hand as it is. -/
def Deed.isQuiet : Deed μ → Bool
  | .step (.share _ _) _ | .step (.acquire _ _ _) _ | .step (.release _ _) _ => false
  | .step (.unshare _ _) _ | .step .serial _ => false
  | .step (.record _ o) _ => o.isFree
  | .step (.pick _ _) (some (.delivery _ _)) => false
  | .step (.offer _ (.delivery _ _)) true | .step (.send _ (.delivery _ _)) true => false
  | .took (.delivery _ _) => false
  | _ => true

/-- What can become of everything that a thread has in hand. -/
inductive Standing.Moves (g g' : Standing) : Deed μ → Prop where
  | quiet {deed : Deed μ} (quiet : deed.isQuiet = true) (fresh : g'.fresh = g.fresh)
      (stack : g'.stack = g.stack) : Moves g g' deed
  | serial {n : Nat} (fresh : g'.fresh = n :: g.fresh) (stack : g'.stack = g.stack) :
      Moves g g' (.step .serial n)
  | select {t : Thread} {id : PostId} {invocations : List Invocation} (mem : id ∈ g.fresh)
      (nodup : invocations.Nodup) (posts : ∀ i ∈ invocations, i.post = id)
      (fresh : g'.fresh = g.fresh.erase id) (stack : g'.stack = .post id none invocations :: g.stack) :
      Moves g g' (.step (.record t (.selected id invocations)) ())
  | hand {deed : Deed μ} {top top' : Frame} {rest : List Frame} {hand hand' : Hand}
      (before : g.stack = top :: rest) (focus : top' = top ∨ top' = top.focus)
      (held : top'.hand? = some hand) (moves : hand.Moves deed hand') (fresh : g'.fresh = g.fresh)
      (stack : g'.stack = top'.withHand hand' :: rest) : Moves g g' deed
  | submit {t : Thread} {i : Invocation} {id : PostId} {todo : List Invocation} {rest : List Frame}
      (before : g.stack = .post id none (i :: todo) :: rest) (fresh : g'.fresh = g.fresh)
      (stack : g'.stack = .post id (some ⟨i, .offered, none⟩) todo :: rest) :
      Moves g g' (.step (.record t (.submitted i)) ())
  | accepted {deed : Deed μ} {i : Invocation} {id : PostId} {todo : List Invocation}
      {rest : List Frame} (accepted : deed.accepted? = some i)
      (before : g.stack = .post id (some ⟨i, .offered, none⟩) todo :: rest)
      (fresh : g'.fresh = g.fresh) (stack : g'.stack = .post id none todo :: rest) : Moves g g' deed
  | refuse {t : Thread} {i : Invocation} {executor : String} {id : PostId} {todo : List Invocation}
      {rest : List Frame} (before : g.stack = .post id (some ⟨i, .offered, none⟩) todo :: rest)
      (fresh : g'.fresh = g.fresh)
      (stack : g'.stack = .post id (some ⟨i, .lost executor 0, none⟩) todo :: rest) :
      Moves g g' (.step (.record t (.dropped i executor)) ())
  | drop {t : Thread} {i : Invocation} {executor : String} {rest : List Frame}
      (before : g.stack = .job ⟨i, .taken, none⟩ :: rest) (fresh : g'.fresh = g.fresh)
      (stack : g'.stack = .job ⟨i, .lost executor 0, none⟩ :: rest) :
      Moves g g' (.step (.record t (.dropped i executor)) ())
  | settlePost {t : Thread} {i : Invocation} {id : PostId} {executor : String} {told : Nat}
      {todo : List Invocation} {rest : List Frame}
      (before : g.stack = .post id (some ⟨i, .lost executor told, none⟩) todo :: rest)
      (fresh : g'.fresh = g.fresh) (stack : g'.stack = .post id none todo :: rest) :
      Moves g g' (.step (.record t (.settled i)) ())
  | settleJob {t : Thread} {i : Invocation} {phase : Phase} (isOver : phase.isOver = true)
      (before : g.stack = .job ⟨i, phase, none⟩ :: g'.stack) (fresh : g'.fresh = g.fresh) :
      Moves g g' (.step (.record t (.settled i)) ())
  | answer {t : Thread} {id : PostId} {outcome : Outcome} {hand : Option Hand}
      {todo : List Invocation} (between : ∀ h, hand = some h → ∃ i r told, h = ⟨i, .ended r told, none⟩)
      (before : g.stack = .post id hand todo :: g'.stack) (fresh : g'.fresh = g.fresh) :
      Moves g g' (.step (.record t (.answered id outcome)) ())
  | take {deed : Deed μ} {i : Invocation} (taken : deed.taken? = some i) (fresh : g'.fresh = g.fresh)
      (stack : g'.stack = .job ⟨i, .taken, none⟩ :: g.stack) : Moves g g' deed

namespace Standing

variable {g g' : Standing}

theorem onTop_eq_some {change : Frame → Option (List Frame)} (h : g.onTop change = some g') :
    ∃ top rest frames, g.stack = top :: rest ∧ change top = some frames ∧ g'.fresh = g.fresh ∧
      g'.stack = frames ++ rest := by
  unfold onTop at h
  split at h
  · cases h
  · rename_i top rest hstack
    obtain ⟨frames, hchange, rfl⟩ := Option.map_eq_some_iff.mp h
    exact ⟨top, rest, frames, hstack, hchange, rfl, rfl⟩

theorem moves_onHand {deed : Deed μ} {change : Hand → Option Hand} {focus : Frame → Frame}
    (hfocus : ∀ f, focus f = f ∨ focus f = f.focus)
    (hmoves : ∀ hand hand', change hand = some hand' → hand.Moves deed hand')
    (h : g.onTop (fun f => (focus f).onHand change) = some g') : Moves g g' deed := by
  obtain ⟨top, rest, frames, hstack, hchange, hfresh, hstack'⟩ := onTop_eq_some h
  obtain ⟨hand, hand', hheld, hdone, rfl⟩ := Frame.onHand_eq_some hchange
  exact .hand hstack (hfocus top) hheld (hmoves hand hand' hdone) hfresh hstack'

end Standing

namespace Hand

variable {hand hand' : Hand}

theorem share_moves {b : BusId} {handler : HandlerKey} {lock : LockId}
    (h : hand.share b handler lock = some hand') :
    hand.Moves (μ := μ) (.step (.share b handler) lock) hand' := by
  unfold share at h
  split at h
  · split at h <;> cases h
    rename_i hfits
    obtain ⟨rfl, rfl, hexclusive⟩ := hfits
    exact .share hexclusive
  · cases h

theorem acquire_moves {b : BusId} {lock : LockId} {t : Thread}
    (h : hand.acquire b lock t = some hand') :
    hand.Moves (μ := μ) (.step (.acquire b lock t) ()) hand' := by
  unfold acquire at h
  split at h
  · split at h <;> cases h
    rename_i hfits
    obtain ⟨rfl, rfl⟩ := hfits
    exact .acquire
  · cases h

theorem call_moves {t : Thread} {i : Invocation} {object : Object}
    (h : hand.call t i = some hand') :
    hand.Moves (μ := μ) (.step (.record t (.called i object)) ()) hand' := by
  unfold call at h
  split at h
  · split at h <;> cases h
    rename_i hfits
    obtain ⟨rfl, hconcurrent⟩ := hfits
    exact .call hconcurrent
  · split at h <;> cases h
    rename_i hfits
    obtain ⟨rfl, rfl⟩ := hfits
    exact .callHolding
  · cases h

theorem finish_moves {t : Thread} {i : Invocation} {r : Reaction}
    (h : hand.finish t i r = some hand') :
    hand.Moves (μ := μ) (.step (.record t (.ended i r)) ()) hand' := by
  unfold finish at h
  split at h
  · split at h <;> cases h
    rename_i hfits
    obtain ⟨rfl, rfl⟩ := hfits
    exact .finish
  · cases h

theorem release_moves {b : BusId} {lock : LockId} (h : hand.release b lock = some hand') :
    hand.Moves (μ := μ) (.step (.release b lock) ()) hand' := by
  unfold release at h
  split at h
  · split at h <;> cases h
    rename_i hfits
    obtain ⟨rfl, rfl⟩ := hfits
    exact .release
  · cases h

theorem unshare_moves {b : BusId} {lock : LockId} (h : hand.unshare b lock = some hand') :
    hand.Moves (μ := μ) (.step (.unshare b lock) ()) hand' := by
  unfold unshare at h
  split at h
  · split at h <;> cases h
    rename_i hfits
    obtain ⟨rfl, rfl⟩ := hfits
    exact .unshare
  · cases h

theorem report_moves {t : Thread} {i : Invocation} {place : Nat} {observer : Observer}
    {failure : Failure} (h : hand.report i place = some hand') :
    hand.Moves (μ := μ) (.step (.record t (.reported i place observer failure)) ()) hand' := by
  unfold report at h
  split at h
  · split at h <;> cases h
    rename_i hfits
    obtain ⟨rfl, rfl⟩ := hfits
    exact .report rfl rfl
  · split at h <;> cases h
    rename_i hfits
    obtain ⟨rfl, rfl⟩ := hfits
    exact .report rfl rfl
  · cases h

end Hand

namespace Standing

variable {g g' : Standing}

theorem moves_hand {deed : Deed μ} {change : Hand → Option Hand}
    (hmoves : ∀ hand hand', change hand = some hand' → hand.Moves deed hand')
    (h : g.onTop (Frame.onHand change) = some g') : Moves g g' deed :=
  moves_onHand (fun _ => .inl rfl) hmoves h

theorem moves_focus {deed : Deed μ} {change : Hand → Option Hand}
    (hmoves : ∀ hand hand', change hand = some hand' → hand.Moves deed hand')
    (h : g.onTop (fun f => f.focus.onHand change) = some g') : Moves g g' deed :=
  moves_onHand (fun _ => .inr rfl) hmoves h

theorem moves_submit {t : Thread} {i : Invocation} (h : g.onTop (Frame.submit i) = some g') :
    Moves (μ := μ) g g' (.step (.record t (.submitted i)) ()) := by
  obtain ⟨top, rest, frames, hstack, hchange, hfresh, hstack'⟩ := onTop_eq_some h
  unfold Frame.submit at hchange
  split at hchange
  · split at hchange <;> cases hchange
    rename_i heq
    subst heq
    exact .submit hstack hfresh hstack'
  · cases hchange

theorem moves_drop {t : Thread} {i : Invocation} {executor : String}
    (h : g.onTop (Frame.drop i executor) = some g') :
    Moves (μ := μ) g g' (.step (.record t (.dropped i executor)) ()) := by
  obtain ⟨top, rest, frames, hstack, hchange, hfresh, hstack'⟩ := onTop_eq_some h
  unfold Frame.drop at hchange
  split at hchange
  · split at hchange <;> cases hchange
    rename_i heq
    subst heq
    exact .refuse hstack hfresh hstack'
  · split at hchange <;> cases hchange
    rename_i heq
    subst heq
    exact .drop hstack hfresh hstack'
  · cases hchange

/-- An executor accepts the invocation in hand, or nothing changes. -/
theorem moves_offer {deed : Deed μ} {i : Invocation} {accepted : Bool}
    (hquiet : accepted = false → deed.isQuiet = true)
    (haccepted : accepted = true → deed.accepted? = some i)
    (h : g.onTop (Frame.offer i accepted) = some g') : Moves g g' deed := by
  obtain ⟨top, rest, frames, hstack, hchange, hfresh, hstack'⟩ := onTop_eq_some h
  unfold Frame.offer at hchange
  split at hchange
  · split at hchange <;> cases hchange
    rename_i heq
    subst heq
    cases accepted with
    | false => exact .quiet (hquiet rfl) hfresh (hstack'.trans hstack.symm)
    | true => exact .accepted (haccepted rfl) hstack hfresh hstack'
  · cases hchange

theorem moves_settle {t : Thread} {i : Invocation} (h : g.onTop (Frame.settle i) = some g') :
    Moves (μ := μ) g g' (.step (.record t (.settled i)) ()) := by
  obtain ⟨top, rest, frames, hstack, hchange, hfresh, hstack'⟩ := onTop_eq_some h
  unfold Frame.settle at hchange
  split at hchange
  · split at hchange <;> cases hchange
    rename_i heq
    subst heq
    exact .settlePost hstack hfresh hstack'
  · split at hchange <;> cases hchange
    rename_i heq
    subst heq
    refine .settleJob ?_ (hstack.trans (congrArg _ hstack'.symm)) hfresh
    rfl
  · split at hchange <;> cases hchange
    rename_i heq
    subst heq
    refine .settleJob ?_ (hstack.trans (congrArg _ hstack'.symm)) hfresh
    rfl
  · cases hchange

theorem moves_answer {t : Thread} {id : PostId} {outcome : Outcome}
    (h : g.onTop (Frame.answer id) = some g') :
    Moves (μ := μ) g g' (.step (.record t (.answered id outcome)) ()) := by
  obtain ⟨top, rest, frames, hstack, hchange, hfresh, hstack'⟩ := onTop_eq_some h
  unfold Frame.answer at hchange
  split at hchange
  · split at hchange <;> cases hchange
    rename_i heq
    subst heq
    refine .answer ?_ (hstack.trans (congrArg _ hstack'.symm)) hfresh
    rintro hand ⟨⟩
  · split at hchange <;> cases hchange
    rename_i i r told todo heq
    subst heq
    refine .answer ?_ (hstack.trans (congrArg _ hstack'.symm)) hfresh
    rintro hand ⟨⟩
    exact ⟨i, r, told, rfl⟩
  · cases hchange

/-- The protocol in full. -/
theorem step?_moves {s : Step μ} {reply : s.Reply} (h : g.step? s reply = some g') :
    Moves g g' (.step s reply) := by
  cases s with
  | serial => cases h; exact .serial rfl rfl
  | share b handler => exact moves_focus (fun _ _ => Hand.share_moves) h
  | acquire b lock t =>
    rw [step?] at h
    split at h
    · exact moves_hand (fun _ _ => Hand.acquire_moves) h
    · cases h
  | release b lock => exact moves_hand (fun _ _ => Hand.release_moves) h
  | unshare b lock => exact moves_hand (fun _ _ => Hand.unshare_moves) h
  | record t o =>
    cases o with
    | selected id invocations =>
      rw [step?, write?] at h
      split at h <;> cases h
      rename_i hfits
      exact .select hfits.1 hfits.2.1 hfits.2.2 rfl rfl
    | answered id outcome => exact moves_answer h
    | called i object => exact moves_focus (fun _ _ => Hand.call_moves) h
    | ended i r => exact moves_hand (fun _ _ => Hand.finish_moves) h
    | reported i place observer failure => exact moves_hand (fun _ _ => Hand.report_moves) h
    | submitted i => exact moves_submit h
    | dropped i executor => exact moves_drop h
    | settled i => exact moves_settle h
    | _ => cases h; exact .quiet rfl rfl rfl
  | offer e job =>
    cases job with
    | work label body => cases h; exact .quiet rfl rfl rfl
    | delivery d executor =>
      refine moves_offer (fun hreply : reply = false => ?_) (fun hreply => ?_) h <;>
        rw [hreply] <;> rfl
  | send e job =>
    cases job with
    | work label body => cases h; exact .quiet rfl rfl rfl
    | delivery d executor =>
      refine moves_offer (fun hreply : reply = false => ?_) (fun hreply => ?_) h <;>
        rw [hreply] <;> rfl
  | pick e place =>
    cases reply with
    | none => cases h; exact .quiet rfl rfl rfl
    | some job =>
      cases h
      cases job with
      | work label body => exact .quiet rfl rfl rfl
      | delivery d executor => exact .take rfl rfl rfl
  | _ => cases h; exact .quiet rfl rfl rfl

end Standing

/-- What has to be true for a thread to do this. -/
def Outlook.Backs (O : Outlook) (g : Standing) : Deed μ → Prop
  | .step s _ => O.Allows g s
  | _ => True

/-- The handler does not run. -/
def Hand.IsIdle (hand : Hand) : Prop := ∀ name, hand.phase ≠ .running name

theorem Frame.hand?_focus {f : Frame} {hand : Hand} (h : f.focus.hand? = some hand) :
    f.hand? = some hand ∨ hand.IsIdle := by
  unfold focus at h
  split at h
  · cases h
    exact .inr fun _ => nofun
  · cases h
    exact .inr fun _ => nofun
  · exact .inl h

/-- What is true of idle invocations and survives all moves is true of all invocations in hand. -/
theorem Standing.Moves.forall_hands {g g' : Standing} {deed : Deed μ} (h : g.Moves g' deed)
    {P : Hand → Prop} (hidle : ∀ hand, hand.IsIdle → P hand)
    (hmoves : ∀ hand hand', P hand → hand.Moves deed hand' → P hand')
    (hold : ∀ hand ∈ g.stack.filterMap Frame.hand?, P hand) :
    ∀ hand ∈ g'.stack.filterMap Frame.hand?, P hand := by
  cases h with
  | quiet _ _ stack => rwa [stack]
  | serial _ stack => rwa [stack]
  | select _ _ _ _ stack => rwa [stack]
  | @hand _ top top' rest hand hand' before focus held moves _ stack =>
    rw [before] at hold
    rw [stack]
    have hhand : P hand := by
      have hheld : top.hand? = some hand ∨ hand.IsIdle := by
        rcases focus with rfl | rfl
        · exact .inl held
        · exact Frame.hand?_focus held
      rcases hheld with hheld | hfresh
      · exact hold hand (List.mem_filterMap.mpr ⟨top, List.mem_cons_self, hheld⟩)
      · exact hidle hand hfresh
    intro hand₁ hmem
    rw [List.filterMap_cons_some (Frame.hand?_withHand top' hand')] at hmem
    rcases List.mem_cons.mp hmem with rfl | hrest
    · exact hmoves _ _ hhand moves
    · obtain ⟨f, hf, hh⟩ := List.mem_filterMap.mp hrest
      exact hold hand₁ (List.mem_filterMap.mpr ⟨f, List.mem_cons_of_mem _ hf, hh⟩)
  | submit before _ stack =>
    rw [before] at hold
    rw [stack]
    exact List.forall_mem_cons.mpr ⟨hidle _ fun _ => nofun, hold⟩
  | accepted _ before _ stack =>
    rw [before] at hold
    rw [stack]
    exact (List.forall_mem_cons.mp hold).2
  | refuse before _ stack =>
    rw [before] at hold
    rw [stack]
    exact List.forall_mem_cons.mpr ⟨hidle _ fun _ => nofun, (List.forall_mem_cons.mp hold).2⟩
  | drop before _ stack =>
    rw [before] at hold
    rw [stack]
    exact List.forall_mem_cons.mpr ⟨hidle _ fun _ => nofun, (List.forall_mem_cons.mp hold).2⟩
  | settlePost before _ stack =>
    rw [before] at hold
    rw [stack]
    exact (List.forall_mem_cons.mp hold).2
  | settleJob _ before _ =>
    rw [before] at hold
    exact (List.forall_mem_cons.mp hold).2
  | @answer _ _ _ hand _ _ before _ =>
    rw [before] at hold
    cases hand with
    | none => exact hold
    | some hand => exact (List.forall_mem_cons.mp hold).2
  | take _ _ stack =>
    rw [stack]
    exact List.forall_mem_cons.mpr ⟨hidle _ fun _ => nofun, hold⟩

/-- Traces in which all threads follow the protocol, seen without the world. -/
inductive Moving (O : Outlook) : Trace μ → Prop where
  | start : Moving O []
  | deed {trace : Trace μ} {t : Turn} {deed : Deed μ} (before : Moving O trace)
      (moves : (O.protocol.standing trace t).Moves
        (O.protocol.next t (O.protocol.standing trace t) deed) deed)
      (backed : O.Backs (O.protocol.standing trace t) deed) : Moving O ((t, deed) :: trace)

theorem moving {O : Outlook} {trace : Trace μ} {w : World μ} (h : O.protocol.Lawful trace w) :
    Moving O trace := by
  induction h with
  | start memory => exact .start
  | step before allowed world ih =>
    exact .deed ih (Standing.step?_moves (Outlook.step?_of_allows allowed _)) allowed.2
  | @took _ _ _ _ _ job _ _ _ _ ih =>
    cases job with
    | delivery d executor => exact .deed ih (.take rfl rfl rfl) trivial
    | work label body => exact .deed ih (.quiet rfl rfl rfl) trivial
  | woke before idle ready world ih => exact .deed ih (.quiet rfl rfl rfl) trivial
  | rested before world ih => exact ih

/-- A property of what a thread has done and has in hand holds at any time if all its moves keep
it and the deeds of other threads do not matter. -/
theorem Moving.stands {O : Outlook} {P : Turn → Trace μ → Standing → Prop} {trace : Trace μ}
    (h : Moving O trace) (hbase : ∀ t, P t [] (Outlook.base t))
    (hmoves : ∀ t trace g g' deed, P t trace g → g.Moves g' deed → O.Backs g deed →
      P t ((t, deed) :: trace) g')
    (hothers : ∀ t u trace g deed, u ≠ t → P t trace g → P t ((u, deed) :: trace) g) (t : Turn) :
    P t trace (O.protocol.standing trace t) := by
  induction h with
  | start => exact hbase t
  | @deed trace u deed before moves backed ih =>
    rw [Conduct.standing_cons]
    by_cases ht : t = u
    · subst ht
      rw [if_pos rfl]
      exact hmoves _ _ _ _ _ ih moves backed
    · rw [if_neg ht]
      exact hothers _ _ _ _ _ (Ne.symm ht) ih

end PubSub
