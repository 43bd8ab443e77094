import Mathlib.Data.List.Nodup
import PubSub.Locks

/-!
# Lock tables and their users

A lock counts the invocations that have a share of it, and its depth counts those that hold it.
As long as a lock has users it stays in the table under the handler that it was made for, whatever
is swept or reclaimed meanwhile.
-/
namespace PubSub

namespace Keyed

variable {κ ν : Type}

theorem nodup_keys_filter {m : Keyed κ ν} (hm : m.keys.Nodup) (keep : κ → ν → Bool) :
    (m.filter keep).keys.Nodup := hm.sublist (List.filter_sublist.map Prod.fst)

theorem get?_of_get?_filter [DecidableEq κ] {m : Keyed κ ν} (hm : m.keys.Nodup)
    {keep : κ → ν → Bool} {k : κ} {v : ν} (h : (m.filter keep).get? k = some v) :
    m.get? k = some v :=
  get?_of_mem_pairs hm (List.mem_of_mem_filter (mem_pairs_of_get? h))

end Keyed

namespace Locks

theorem lock_set (l : Locks) (id id' : LockId) (x : Lock) :
    (l.set id x).lock id' = if id' = id then x else l.lock id' := by
  simp only [lock, set, Keyed.get?_insert]
  split <;> rfl

/-- The table counts for each lock how many invocations use it and how many of them hold it. -/
structure Tracks (l : Locks) (used held : LockId → Nat) : Prop where
  keys : l.entries.keys.Nodup
  below : ∀ handler id, l.entries.get? handler = some id → id.serial < l.next
  apart : ∀ handler handler' id, l.entries.get? handler = some id →
    l.entries.get? handler' = some id → handler = handler'
  unmade : ∀ id, l.next ≤ id.serial → used id = 0 ∧ held id = 0
  shares : ∀ id, (l.lock id).shares = used id
  free : ∀ id, (l.lock id).holder = none → held id = 0
  busy : ∀ id t, (l.lock id).holder = some t → (l.lock id).depth = held id ∧ 0 < held id

/-- What a change of the table leaves alone: who holds a lock, and where a lock in use is found. No
handler gets a lock that was made earlier. -/
structure Spares (l l' : Locks) (used held : LockId → Nat) : Prop where
  holder : ∀ id, 0 < held id → (l'.lock id).holder = (l.lock id).holder
  entries : ∀ handler id, 0 < used id → l.entries.get? handler = some id →
    l'.entries.get? handler = some id
  next : l.next ≤ l'.next
  made : ∀ handler id, l'.entries.get? handler = some id →
    l.entries.get? handler = some id ∨ l.next ≤ id.serial

/-- One more for one lock. -/
def bump (count : LockId → Nat) (id : LockId) : LockId → Nat :=
  fun id' => if id' = id then count id' + 1 else count id'

variable {l : Locks} {used held : LockId → Nat}

theorem Spares.refl : l.Spares l used held :=
  ⟨fun _ _ => rfl, fun _ _ _ h => h, Nat.le_refl _, fun _ _ h => .inl h⟩

theorem tracks_empty : empty.Tracks (fun _ => 0) fun _ => 0 :=
  ⟨List.nodup_nil, nofun, nofun, fun _ _ => ⟨rfl, rfl⟩, fun _ => rfl, fun _ _ => rfl, nofun⟩

theorem Tracks.made (h : l.Tracks used held) {id : LockId} (hused : 0 < used id) :
    id.serial < l.next := by
  rcases Nat.lt_or_ge id.serial l.next with hlt | hge
  · exact hlt
  · have := (h.unmade id hge).1
    omega

/-- A change of one lock that the counts follow. -/
theorem Tracks.set (h : l.Tracks used held) {id : LockId} {x : Lock} {used' held' : LockId → Nat}
    (hmade : id.serial < l.next) (hused : ∀ id', id' ≠ id → used' id' = used id')
    (hheld : ∀ id', id' ≠ id → held' id' = held id') (hshares : x.shares = used' id)
    (hfree : x.holder = none → held' id = 0)
    (hbusy : ∀ t, x.holder = some t → x.depth = held' id ∧ 0 < held' id) :
    (l.set id x).Tracks used' held' := by
  refine ⟨h.keys, h.below, h.apart, fun id' hge => ?_, fun id' => ?_, fun id' => ?_, fun id' t => ?_⟩
  · have hne : id' ≠ id := by
      rintro rfl
      exact absurd hmade (Nat.not_lt.mpr hge)
    rw [hused id' hne, hheld id' hne]
    exact h.unmade id' hge
  · rw [lock_set]
    split
    · rename_i heq
      rw [heq, hshares]
    · rename_i hne
      rw [hused id' hne, h.shares]
  · rw [lock_set]
    split
    · rename_i heq
      exact heq ▸ hfree
    · rename_i hne
      rw [hheld id' hne]
      exact h.free id'
  · rw [lock_set]
    split
    · rename_i heq
      exact heq ▸ hbusy t
    · rename_i hne
      rw [hheld id' hne]
      exact h.busy id' t

theorem spares_set {id : LockId} {x : Lock}
    (hholder : 0 < held id → x.holder = (l.lock id).holder) : l.Spares (l.set id x) used held := by
  refine ⟨fun id' hheld => ?_, fun _ _ _ h => h, Nat.le_refl _, fun _ _ h => .inl h⟩
  rw [lock_set]
  split
  · rename_i heq
    subst heq
    exact hholder hheld
  · rfl

/-- A handler without a lock gets a new one, which nobody has used before. -/
theorem Tracks.shareNew (h : l.Tracks used held) (handler : HandlerKey) :
    Tracks ⟨l.entries.insert handler ⟨l.next⟩, l.locks.insert ⟨l.next⟩ { Lock.fresh with shares := 1 },
      l.next + 1⟩ (bump used ⟨l.next⟩) held := by
  have hunmade := h.unmade ⟨l.next⟩ (Nat.le_refl _)
  have hlock : ∀ id, lock ⟨l.entries.insert handler ⟨l.next⟩,
      l.locks.insert ⟨l.next⟩ { Lock.fresh with shares := 1 }, l.next + 1⟩ id =
        if id = ⟨l.next⟩ then { Lock.fresh with shares := 1 } else l.lock id := by
    intro id
    simp only [lock, Keyed.get?_insert]
    split <;> rfl
  constructor
  · exact Keyed.nodup_keys_insert h.keys _ _
  · intro handler' id hget
    rw [Keyed.get?_insert] at hget
    split at hget
    · cases hget
      exact Nat.lt_succ_self _
    · exact Nat.lt_succ_of_lt (h.below handler' id hget)
  · intro handler₁ handler₂ id hget₁ hget₂
    rw [Keyed.get?_insert] at hget₁ hget₂
    split at hget₁ <;> split at hget₂
    · simp_all only
    · cases hget₁
      exact absurd (h.below _ _ hget₂) (Nat.lt_irrefl _)
    · cases hget₂
      exact absurd (h.below _ _ hget₁) (Nat.lt_irrefl _)
    · exact h.apart _ _ _ hget₁ hget₂
  · intro id hge
    have hne : id ≠ ⟨l.next⟩ := by
      rintro rfl
      exact absurd hge (Nat.not_succ_le_self _)
    rw [bump, if_neg hne]
    exact h.unmade id (Nat.le_of_succ_le hge)
  · intro id
    rw [hlock, bump]
    split
    · rename_i heq
      rw [heq, hunmade.1]
    · exact h.shares id
  · intro id
    rw [hlock]
    split
    · rename_i heq
      exact fun _ => heq ▸ hunmade.2
    · exact h.free id
  · intro id t
    rw [hlock]
    split
    · rintro ⟨⟩
    · exact h.busy id t

theorem Tracks.share (h : l.Tracks used held) (handler : HandlerKey) :
    (l.share handler).2.Tracks (bump used (l.share handler).1) held ∧
      l.Spares (l.share handler).2 used held ∧
      (l.share handler).2.entries.get? handler = some (l.share handler).1 := by
  unfold Locks.share
  cases hentry : l.entries.get? handler with
  | some id =>
    refine ⟨?_, spares_set fun _ => rfl, hentry⟩
    refine h.set (h.below handler id hentry) (fun id' hne => if_neg hne) (fun _ _ => rfl) ?_
      (h.free id) (h.busy id)
    simp only [bump, if_true, h.shares]
  | none =>
    refine ⟨h.shareNew handler, ⟨fun id hheld => ?_, fun handler' id hused hget => ?_,
      Nat.le_succ _, fun handler' id hget => ?_⟩, ?_⟩
    · have hne : id ≠ ⟨l.next⟩ := by
        rintro rfl
        have := (h.unmade ⟨l.next⟩ (Nat.le_refl _)).2
        omega
      simp only [lock, Keyed.get?_insert, if_neg hne]
    · have hne : handler' ≠ handler := by
        rintro rfl
        rw [hentry] at hget
        cases hget
      simp only [Keyed.get?_insert, if_neg hne]
      exact hget
    · rw [Keyed.get?_insert] at hget
      split at hget
      · cases hget
        exact .inr (Nat.le_refl _)
      · exact .inl hget
    · simp only [Keyed.get?_insert, if_true]

theorem Tracks.acquire (h : l.Tracks used held) {id : LockId} {t : Thread} {l' : Locks}
    (hused : 0 < used id) (hacquire : l.acquire id t = some l') :
    l'.Tracks used (bump held id) ∧ l.Spares l' used held ∧ (l'.lock id).holder = some t := by
  unfold Locks.acquire at hacquire
  cases hholder : (l.lock id).holder with
  | none =>
    simp only [hholder] at hacquire
    cases hacquire
    have hnone := h.free id hholder
    refine ⟨?_, spares_set fun hheld => ?_, ?_⟩
    · refine h.set (h.made hused) (fun _ _ => rfl) (fun id' hne => if_neg hne) (h.shares id) nofun ?_
      intro t' _
      simp only [bump, if_true, hnone]
      exact ⟨trivial, Nat.one_pos⟩
    · omega
    · rw [lock_set, if_pos rfl]
  | some holder =>
    simp only [hholder] at hacquire
    split at hacquire <;> cases hacquire
    rename_i hsame
    subst hsame
    obtain ⟨hdepth, hpos⟩ := h.busy id holder hholder
    refine ⟨?_, spares_set fun _ => hholder.symm, ?_⟩
    · refine h.set (h.made hused) (fun _ _ => rfl) (fun id' hne => if_neg hne) (h.shares id) nofun ?_
      intro t' _
      simp only [bump, if_true, hdepth]
      exact ⟨trivial, Nat.succ_pos _⟩
    · rw [lock_set, if_pos rfl]

theorem Tracks.release {id : LockId} {held' : LockId → Nat} (h : l.Tracks used (bump held' id))
    (hused : 0 < used id) :
    (l.release id).Tracks used held' ∧ l.Spares (l.release id) used held' := by
  have hheld : bump held' id id = held' id + 1 := if_pos rfl
  have hother : ∀ id', id' ≠ id → held' id' = bump held' id id' := fun id' hne => (if_neg hne).symm
  cases hholder : (l.lock id).holder with
  | none =>
    have := h.free id hholder
    omega
  | some t =>
    obtain ⟨hdepth, -⟩ := h.busy id t hholder
    unfold Locks.release
    by_cases hlast : (l.lock id).depth ≤ 1
    · have hnone : held' id = 0 := by omega
      simp only [hlast, if_true]
      refine ⟨h.set (h.made hused) (fun _ _ => rfl) hother (h.shares id) (fun _ => hnone) nofun,
        spares_set fun hheld => ?_⟩
      omega
    · simp only [hlast, if_false]
      refine ⟨h.set (h.made hused) (fun _ _ => rfl) hother (h.shares id) ?_ ?_,
        spares_set fun _ => rfl⟩
      · intro hnone
        rw [hholder] at hnone
        cases hnone
      · intro _ _
        constructor
        · rw [hdepth, hheld]
          rfl
        · omega

theorem Tracks.unshare {id : LockId} {used' : LockId → Nat} (h : l.Tracks (bump used' id) held) :
    (l.unshare id).Tracks used' held ∧ l.Spares (l.unshare id) used' held := by
  have hused : bump used' id id = used' id + 1 := if_pos rfl
  refine ⟨?_, spares_set fun _ => rfl⟩
  refine h.set (h.made (hused ▸ Nat.succ_pos _)) (fun id' hne => (if_neg hne).symm) (fun _ _ => rfl)
    ?_ (h.free id) (h.busy id)
  simp only [h.shares, hused, Nat.add_sub_cancel]

/-- Entries may go as long as no user of their lock is left. -/
theorem Tracks.fewer (h : l.Tracks used held) {entries : Keyed HandlerKey LockId}
    (hkeys : entries.keys.Nodup)
    (hsub : ∀ handler id, entries.get? handler = some id → l.entries.get? handler = some id) :
    Tracks { l with entries } used held :=
  ⟨hkeys, fun handler id hid => h.below handler id (hsub handler id hid),
    fun handler handler' id hid hid' =>
      h.apart handler handler' id (hsub handler id hid) (hsub handler' id hid'),
    h.unmade, h.shares, h.free, h.busy⟩

theorem Tracks.discard (h : l.Tracks used held) (handler : HandlerKey) :
    (l.discard handler).Tracks used held ∧ l.Spares (l.discard handler) used held := by
  unfold Locks.discard
  cases hentry : l.entries.get? handler with
  | none => exact ⟨h, .refl⟩
  | some id =>
    by_cases hshares : (l.lock id).shares = 0
    · simp only [hshares, if_true]
      have hsub : ∀ handler' id', (l.entries.erase handler).get? handler' = some id' →
          l.entries.get? handler' = some id' := by
        intro handler' id' hget
        rw [Keyed.get?_erase] at hget
        split at hget
        · cases hget
        · exact hget
      refine ⟨h.fewer (Keyed.nodup_keys_erase h.keys _) hsub, fun _ _ => rfl, ?_, Nat.le_refl _,
        fun handler' id' hget => .inl (hsub handler' id' hget)⟩
      · intro handler' id' hused hget
        have hne : handler' ≠ handler := by
          rintro rfl
          rw [hentry] at hget
          cases hget
          rw [h.shares] at hshares
          omega
        rw [Keyed.get?_erase, if_neg hne]
        exact hget
    · simp only [hshares, if_false]
      exact ⟨h, .refl⟩

theorem Tracks.prune (h : l.Tracks used held) (registered : SubscriberId → Bool) :
    (l.prune registered).Tracks used held ∧ l.Spares (l.prune registered) used held := by
  have hsub : ∀ handler id, (l.prune registered).entries.get? handler = some id →
      l.entries.get? handler = some id := fun _ _ => Keyed.get?_of_get?_filter h.keys
  refine ⟨h.fewer (Keyed.nodup_keys_filter h.keys _) hsub, fun _ _ => rfl, ?_, Nat.le_refl _,
    fun handler id hget => .inl (hsub handler id hget)⟩
  intro handler id hused hget
  refine Keyed.get?_filter hget ?_
  rw [Bool.or_eq_true, decide_eq_true_eq, h.shares]
  exact .inr hused

end Locks

end PubSub
