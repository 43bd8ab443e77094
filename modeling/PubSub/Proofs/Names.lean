import PubSub.Proofs.Grounds

/-!
# Names of threads

No two threads go by the same name: the names that threads have from the start differ, and every
serial is given out once.
-/
namespace PubSub

variable {μ : Type} {O : Outlook}

/-- The serial that a deed gives out, and the thread that may go by it. -/
def Deed.issue? (t : Turn) : Deed μ → Option (Nat × Turn)
  | .step .serial n => some (n, t)
  | .step (.startTask _) n => some (n, .task n)
  | _ => none

/-- The serials that have been given out, the latest first. -/
def issued (trace : Trace μ) : List (Nat × Turn) := trace.filterMap fun (t, deed) => deed.issue? t

/-- The thread that may go by a name is this one. -/
def Bears (trace : Trace μ) (t : Turn) : Thread → Prop
  | .main => t = .caller 0
  | .worker e i => t = .worker e i
  | .started n => (n, t) ∈ issued trace

theorem Bears.cons {trace : Trace μ} {t : Turn} {name : Thread} (h : Bears trace t name)
    (deed : Turn × Deed μ) : Bears (deed :: trace) t name := by
  cases name with
  | main => exact h
  | worker e i => exact h
  | started n =>
    obtain ⟨entry, hentry, heq⟩ := List.mem_filterMap.mp h
    exact List.mem_filterMap.mpr ⟨entry, List.mem_cons_of_mem _ hentry, heq⟩

/-- Which names threads have, and which serials are still to come. -/
structure Named (O : Outlook) (trace : Trace μ) (w : World μ) : Prop where
  below : ∀ entry ∈ issued trace, entry.1 < w.serial
  distinct : ((issued trace).map Prod.fst).Nodup
  ready : ∀ n body, w.tasks.get? n = some (.ready body) → (n, .task n) ∈ issued trace
  bears : ∀ t, ∀ name ∈ (O.protocol.standing trace t).names, Bears trace t name

theorem bears_base (t : Turn) : ∀ name ∈ (Outlook.base t).names, Bears (μ := μ) [] t name := by
  intro name hname
  unfold Outlook.base at hname
  split at hname
  · cases List.mem_singleton.mp hname; rfl
  · cases List.mem_singleton.mp hname; rfl
  · cases hname

theorem numbered?_eq (s : Step μ) (reply : s.Reply) (t : Turn) :
    s.numbered? reply = ((Deed.step s reply).issue? t).map Prod.fst := by
  cases s <;> rfl

theorem Named.step {trace : Trace μ} {w w' : World μ} {t : Turn} {s : Step μ} {reply : s.Reply}
    (h : Named O trace w) (hallowed : O.protocol.allows (O.protocol.standing trace t) s)
    (hrun : s.run w = some (reply, w')) : Named O ((t, .step s reply) :: trace) w' := by
  have heffect := Step.run_effect hrun
  have hserial := heffect.serial
  rw [numbered?_eq s reply t] at hserial
  have hissued : issued ((t, .step s reply) :: trace) =
      ((Deed.step s reply).issue? t).toList ++ issued trace := by
    unfold issued
    cases hi : (Deed.step s reply).issue? t <;> simp [hi]
  constructor
  · rw [hissued]
    cases hi : (Deed.step s reply).issue? t with
    | none =>
      rw [hi] at hserial
      exact fun entry hentry => hserial ▸ h.below entry hentry
    | some entry =>
      rw [hi] at hserial
      obtain ⟨hnew, hserial⟩ := hserial
      intro entry' hentry'
      rcases List.mem_cons.mp hentry' with rfl | hold
      · omega
      · have := h.below entry' hold
        omega
  · rw [hissued]
    cases hi : (Deed.step s reply).issue? t with
    | none => exact h.distinct
    | some entry =>
      rw [hi] at hserial
      refine List.nodup_cons.mpr ⟨?_, h.distinct⟩
      intro hmem
      obtain ⟨entry', hentry', heq⟩ := List.mem_map.mp hmem
      have hbelow := h.below entry' hentry'
      have hnew := hserial.1
      omega
  · intro n body hready
    rw [hissued]
    rcases heffect.tasks n body hready with hold | ⟨rfl, rfl⟩
    · exact List.mem_append_right _ (h.ready n body hold)
    · cases hrun
      exact List.mem_cons_self
  · intro u name hname
    rw [Conduct.standing_cons] at hname
    split at hname
    · rename_i hu
      subst hu
      rcases Outlook.step?_names (Outlook.step?_of_allows hallowed reply) with hsame | ⟨n, hdeed, hnew⟩
      · exact (h.bears u name (hsame ▸ hname)).cons _
      · rw [Conduct.next, hnew] at hname
        rcases List.mem_cons.mp hname with rfl | hold
        · rw [hdeed]
          exact List.mem_cons_self
        · exact (h.bears u name hold).cons _
    · exact (h.bears u name hname).cons _

theorem named {trace : Trace μ} {w : World μ} (h : O.protocol.Lawful trace w) :
    Named O trace w := by
  induction h with
  | start memory => exact ⟨nofun, List.nodup_nil, nofun, bears_base⟩
  | step before allowed world ih => exact ih.step allowed world
  | took before idle jobs world ih =>
    refine ⟨fun entry hentry => ?_, ih.distinct, fun n body hready => ?_, fun u name hname => ?_⟩
    · rw [world.2.2.1]
      exact ih.below entry hentry
    · rw [world.2.2.2.1] at hready
      exact ih.ready n body hready
    · rw [Conduct.standing_cons] at hname
      split at hname
      · rename_i hu
        subst hu
        exact (ih.bears _ name hname).cons _
      · exact (ih.bears u name hname).cons _
  | @woke trace w w' n body before idle ready world ih =>
    refine ⟨fun entry hentry => ?_, ih.distinct, fun n body hready => ?_, fun u name hname => ?_⟩
    · rw [world.serial]
      exact ih.below entry hentry
    · exact ih.ready n body (world.tasks n body hready)
    · rw [Conduct.standing_cons] at hname
      split at hname
      · rename_i hu
        subst hu
        rcases List.mem_cons.mp hname with rfl | hold
        · exact ih.ready n body ready
        · exact (ih.bears _ name hold).cons _
      · exact (ih.bears u name hname).cons _
  | rested before world ih =>
    refine ⟨fun entry hentry => ?_, ih.distinct, fun n body hready => ?_, ih.bears⟩
    · rw [world.serial]
      exact ih.below entry hentry
    · exact ih.ready n body (world.tasks n body hready)

/-- A name tells which thread goes by it. -/
theorem Named.bearer_unique {trace : Trace μ} {w : World μ} (h : Named O trace w) {t u : Turn}
    {name : Thread} (ht : name ∈ (O.protocol.standing trace t).names)
    (hu : name ∈ (O.protocol.standing trace u).names) : t = u := by
  have ht := h.bears t name ht
  have hu := h.bears u name hu
  cases name with
  | main => exact ht.trans hu.symm
  | worker e i => exact ht.trans hu.symm
  | started n => exact congrArg Prod.snd (List.inj_on_of_nodup_map h.distinct ht hu rfl)

end PubSub
