/-!
# Finite maps in order of insertion

A `Keyed` map is the list of its pairs. A key that is already present keeps its place when it gets
a new value, and a new key goes to the end. The laws below say what each operation does to `get?`.
-/
namespace PubSub

structure Keyed (κ ν : Type) where
  pairs : List (κ × ν)

namespace Keyed

variable {κ ν : Type}

def empty : Keyed κ ν := ⟨[]⟩

instance : Inhabited (Keyed κ ν) := ⟨empty⟩

def keys (m : Keyed κ ν) : List κ := m.pairs.map Prod.fst

def values (m : Keyed κ ν) : List ν := m.pairs.map Prod.snd

def size (m : Keyed κ ν) : Nat := m.pairs.length

variable [DecidableEq κ]

def get? (m : Keyed κ ν) (k : κ) : Option ν := (m.pairs.find? (·.1 = k)).map Prod.snd

def contains (m : Keyed κ ν) (k : κ) : Bool := m.pairs.any (·.1 = k)

def insert (m : Keyed κ ν) (k : κ) (v : ν) : Keyed κ ν :=
  if m.contains k then ⟨m.pairs.map fun p => if p.1 = k then (k, v) else p⟩
  else ⟨m.pairs ++ [(k, v)]⟩

def erase (m : Keyed κ ν) (k : κ) : Keyed κ ν := ⟨m.pairs.filter (·.1 ≠ k)⟩

/-- Keeps the pairs that pass the test. -/
def filter (m : Keyed κ ν) (keep : κ → ν → Bool) : Keyed κ ν :=
  ⟨m.pairs.filter fun p => keep p.1 p.2⟩

@[simp] theorem get?_empty (k : κ) : (empty : Keyed κ ν).get? k = none := rfl

private theorem find?_update (l : List (κ × ν)) (k k' : κ) (v : ν) :
    (l.map fun p => if p.1 = k then (k, v) else p).find? (·.1 = k') =
      if k' = k then (l.find? (·.1 = k)).map fun _ => (k, v) else l.find? (·.1 = k') := by
  induction l with
  | nil => simp
  | cons p l ih =>
    rw [List.map_cons, List.find?_cons, ih, List.find?_cons, List.find?_cons]
    by_cases hp : p.1 = k
    · by_cases hk : k' = k
      · simp [hp, hk]
      · simp [hp, hk, Ne.symm hk]
    · by_cases hk : k' = k
      · simp [hp, hk]
      · simp [hp, hk]

theorem contains_eq_isSome (m : Keyed κ ν) (k : κ) : m.contains k = (m.get? k).isSome := by
  obtain ⟨l⟩ := m
  induction l with
  | nil => rfl
  | cons p l ih => by_cases hp : p.1 = k <;> simp_all [contains, get?]

theorem get?_insert (m : Keyed κ ν) (k k' : κ) (v : ν) :
    (m.insert k v).get? k' = if k' = k then some v else m.get? k' := by
  have hc := m.contains_eq_isSome k
  unfold insert
  split
  · rename_i h
    rw [h] at hc
    unfold get? at hc ⊢
    simp only [find?_update]
    by_cases hk : k' = k
    · cases hf : m.pairs.find? (·.1 = k) <;> simp_all
    · simp [hk]
  · rename_i h
    simp only [Bool.not_eq_true] at h
    rw [h] at hc
    unfold get? at hc ⊢
    by_cases hk : k' = k
    · subst hk
      have hf : m.pairs.find? (·.1 = k') = none := by
        simpa using hc
      rw [List.find?_append, hf]
      simp
    · have : ¬ k = k' := fun e => hk e.symm
      simp [List.find?_append, hk, this]

theorem get?_erase (m : Keyed κ ν) (k k' : κ) :
    (m.erase k).get? k' = if k' = k then none else m.get? k' := by
  obtain ⟨l⟩ := m
  induction l with
  | nil => simp [erase, get?]
  | cons p l ih =>
    unfold erase get? at ih ⊢
    by_cases hp : p.1 = k
    · rw [List.filter_cons_of_neg (by simpa using hp), ih]
      by_cases hk : k' = k
      · simp [hk]
      · have hne : p.1 ≠ k' := fun h => hk (h.symm.trans hp)
        simp [hk, hne]
    · rw [List.filter_cons_of_pos (by simpa using hp), List.find?_cons, List.find?_cons]
      by_cases hk : p.1 = k'
      · simp [hk, hk ▸ hp]
      · simp only [hk, decide_false, ih]

theorem get?_insert_self (m : Keyed κ ν) (k : κ) (v : ν) : (m.insert k v).get? k = some v := by
  rw [get?_insert, if_pos rfl]

theorem get?_erase_self (m : Keyed κ ν) (k : κ) : (m.erase k).get? k = none := by
  rw [get?_erase, if_pos rfl]

theorem contains_iff_mem_keys (m : Keyed κ ν) (k : κ) : m.contains k = true ↔ k ∈ m.keys := by
  simp [contains, keys]

theorem mem_pairs_of_get? {m : Keyed κ ν} {k : κ} {v : ν} (h : m.get? k = some v) :
    (k, v) ∈ m.pairs := by
  unfold get? at h
  obtain ⟨⟨k', v'⟩, hfind, rfl⟩ := Option.map_eq_some_iff.mp h
  have hk : k' = k := by simpa using List.find?_some hfind
  exact hk ▸ List.mem_of_find?_eq_some hfind

theorem get?_of_mem_pairs {m : Keyed κ ν} (hm : m.keys.Nodup) {entry : κ × ν}
    (h : entry ∈ m.pairs) : m.get? entry.1 = some entry.2 := by
  obtain ⟨l⟩ := m
  unfold keys at hm
  induction l with
  | nil => simp at h
  | cons p l ih =>
    rw [List.map_cons, List.nodup_cons] at hm
    rcases List.mem_cons.mp h with rfl | hl
    · simp [get?]
    · have hne : p.1 ≠ entry.1 := fun he => hm.1 (he ▸ List.mem_map_of_mem hl)
      have hrest := ih hm.2 hl
      unfold get? at hrest ⊢
      rwa [List.find?_cons_of_neg (by simpa using hne)]

theorem get?_eq_none_iff (m : Keyed κ ν) (k : κ) : m.get? k = none ↔ k ∉ m.keys := by
  rw [← contains_iff_mem_keys, contains_eq_isSome]
  simp

/-- A pair that passes the test is still found. -/
theorem get?_filter {m : Keyed κ ν} {keep : κ → ν → Bool} {k : κ} {v : ν} (h : m.get? k = some v)
    (hkeep : keep k v = true) : (m.filter keep).get? k = some v := by
  obtain ⟨l⟩ := m
  unfold filter get? at *
  induction l with
  | nil => simp at h
  | cons p l ih =>
    by_cases hp : p.1 = k
    · rw [List.find?_cons_of_pos (by simpa using hp)] at h
      cases h
      rw [List.filter_cons_of_pos (by rw [hp, hkeep]), List.find?_cons_of_pos (by simpa using hp)]
      rfl
    · rw [List.find?_cons_of_neg (by simpa using hp)] at h
      rw [List.filter_cons]
      split
      · rw [List.find?_cons_of_neg (by simpa using hp)]
        exact ih h
      · exact ih h

theorem keys_insert (m : Keyed κ ν) (k : κ) (v : ν) :
    (m.insert k v).keys = if k ∈ m.keys then m.keys else m.keys ++ [k] := by
  by_cases hc : m.contains k
  · rw [if_pos ((contains_iff_mem_keys m k).mp hc)]
    simp only [insert, hc, if_true, keys, List.map_map]
    apply List.map_congr_left
    intro p _
    by_cases hp : p.1 = k <;> simp [hp]
  · rw [if_neg (fun h => hc ((contains_iff_mem_keys m k).mpr h))]
    simp [insert, hc, keys]

theorem keys_erase (m : Keyed κ ν) (k : κ) : (m.erase k).keys = m.keys.filter (· ≠ k) := by
  simp only [erase, keys, List.filter_map]
  rfl

theorem nodup_keys_insert {m : Keyed κ ν} (h : m.keys.Nodup) (k : κ) (v : ν) :
    (m.insert k v).keys.Nodup := by
  rw [keys_insert]
  split
  · exact h
  · rename_i hk
    rw [List.nodup_append]
    refine ⟨h, by simp, ?_⟩
    intro a ha b hb he
    rw [List.mem_singleton] at hb
    exact hk (hb ▸ he ▸ ha)

theorem nodup_keys_erase {m : Keyed κ ν} (h : m.keys.Nodup) (k : κ) : (m.erase k).keys.Nodup := by
  rw [keys_erase]
  exact h.filter _

end Keyed

end PubSub
