import PubSub.Proofs.Conduct
import PubSub.Proofs.Run

/-!
# Runs in which threads keep to the rules

If all programs obey a conduct, then whatever the order of turns, no thread ever takes a step that
its standing does not allow. From there on the programs can be forgotten: invariants are proved of
lawful histories, in which any thread takes any step that is allowed.
-/
namespace PubSub

variable {μ α : Type}

/-- What is known of the threads that have done something. -/
abbrev Roll (S : Type) := List (Turn × S)

namespace Roll

variable {S : Type} (base : Turn → S)

/-- A thread that is not on the roll has what threads start with. -/
def get (t : Turn) : Roll S → S
  | [] => base t
  | (u, g) :: rest => if u = t then g else get t rest

def put (t : Turn) (g : S) : Roll S → Roll S
  | [] => [(t, g)]
  | (u, g') :: rest => if u = t then (t, g) :: rest else (u, g') :: put t g rest

/-- The sum over all threads. -/
def total (f : S → Nat) : Roll S → Nat
  | [] => 0
  | (_, g) :: rest => f g + total f rest

/-- What all threads have. -/
def gather {A : Type} (f : S → List A) (roll : Roll S) : List A := roll.flatMap fun entry => f entry.2

variable {base}

theorem get_put (roll : Roll S) (t u : Turn) (g : S) :
    (roll.put t g).get base u = if u = t then g else roll.get base u := by
  induction roll with
  | nil =>
    simp only [put, get, eq_comm]
  | cons entry rest ih =>
    obtain ⟨v, g'⟩ := entry
    by_cases hv : v = t
    · subst hv
      simp only [put, if_true, get, eq_comm]
      split <;> rfl
    · simp only [put, if_neg hv, get, ih]
      by_cases hu : v = u
      · simp [hu, hu ▸ hv]
      · simp [hu]

/-- A change of one thread changes the sum by what changes there. -/
theorem total_put {f : S → Nat} (roll : Roll S) {t : Turn} (g : S) (hbase : f (base t) = 0) :
    (roll.put t g).total f + f (roll.get base t) = roll.total f + f g := by
  induction roll with
  | nil => simp [put, get, total, hbase]
  | cons entry rest ih =>
    obtain ⟨v, g'⟩ := entry
    by_cases hv : v = t
    · simp only [put, get, hv, if_true, total]
      omega
    · simp only [put, get, hv, if_false, total]
      omega

theorem le_total {f : S → Nat} (roll : Roll S) {t : Turn} (hbase : f (base t) = 0) :
    f (roll.get base t) ≤ roll.total f := by
  have h := total_put roll (base t) hbase
  omega

theorem mem_put {roll : Roll S} {t u : Turn} {g : S} (h : u ∈ (roll.put t g).map Prod.fst) :
    u = t ∨ u ∈ roll.map Prod.fst := by
  induction roll with
  | nil => exact .inl (List.mem_singleton.mp h)
  | cons entry rest ih =>
    obtain ⟨v, g'⟩ := entry
    rw [put] at h
    split at h
    · rename_i hv
      exact .inr (hv ▸ h)
    · rcases List.mem_cons.mp h with rfl | hrest
      · exact .inr List.mem_cons_self
      · exact (ih hrest).imp_right (List.mem_cons_of_mem _)

theorem nodup_put {roll : Roll S} (h : (roll.map Prod.fst).Nodup) (t : Turn) (g : S) :
    ((roll.put t g).map Prod.fst).Nodup := by
  induction roll with
  | nil => exact List.pairwise_singleton _ t
  | cons entry rest ih =>
    obtain ⟨v, g'⟩ := entry
    obtain ⟨hnew, hrest⟩ := List.nodup_cons.mp h
    rw [put]
    split
    · rename_i hv
      exact hv ▸ h
    · rename_i hv
      exact List.nodup_cons.mpr ⟨fun hmem => (mem_put hmem).elim hv hnew, ih hrest⟩

theorem get_of_mem {roll : Roll S} (hdistinct : (roll.map Prod.fst).Nodup) {t : Turn} {g : S}
    (h : (t, g) ∈ roll) : roll.get base t = g := by
  induction roll with
  | nil => cases h
  | cons entry rest ih =>
    obtain ⟨hnew, hrest⟩ := List.nodup_cons.mp hdistinct
    rcases List.mem_cons.mp h with rfl | h
    · exact if_pos rfl
    · have hne : entry.1 ≠ t := fun heq => hnew (heq ▸ List.mem_map_of_mem h)
      rw [get, if_neg hne]
      exact ih hrest h

/-- What all threads have together, some thread has. -/
theorem exists_of_total_pos {f : S → Nat} {roll : Roll S} (hdistinct : (roll.map Prod.fst).Nodup)
    (h : 0 < roll.total f) : ∃ t, 0 < f (roll.get base t) := by
  have hentry : ∃ entry ∈ roll, 0 < f entry.2 := by
    clear hdistinct
    induction roll with
    | nil => cases h
    | cons entry rest ih =>
      rcases Nat.add_pos_iff_pos_or_pos.mp h with hhead | hrest
      · exact ⟨entry, List.mem_cons_self, hhead⟩
      · obtain ⟨entry', hmem, hpos⟩ := ih hrest
        exact ⟨entry', List.mem_cons_of_mem _ hmem, hpos⟩
  obtain ⟨⟨t, g⟩, hmem, hpos⟩ := hentry
  refine ⟨t, ?_⟩
  rwa [get_of_mem hdistinct hmem]

variable {A : Type} {f : S → List A}

/-- A change of one thread leaves alone what the others have. -/
theorem gather_put (roll : Roll S) {t : Turn} (g : S) (hbase : f (base t) = []) :
    ∃ others, (roll.gather f).Perm (f (roll.get base t) ++ others) ∧
      ((roll.put t g).gather f).Perm (f g ++ others) := by
  induction roll with
  | nil =>
    refine ⟨[], ?_, ?_⟩
    · rw [get, hbase]
      exact .refl _
    · rw [put, gather, List.flatMap_singleton, List.append_nil]
  | cons entry rest ih =>
    obtain ⟨v, g'⟩ := entry
    by_cases hv : v = t
    · refine ⟨gather f rest, ?_, ?_⟩
      · rw [get, if_pos hv]
        exact .refl _
      · rw [put, if_pos hv]
        exact .refl _
    · obtain ⟨others, hbefore, hafter⟩ := ih
      refine ⟨f g' ++ others, ?_, ?_⟩
      · rw [get, if_neg hv]
        exact (hbefore.append_left (f g')).trans (List.perm_append_comm_assoc ..)
      · rw [put, if_neg hv]
        exact (hafter.append_left (f g')).trans (List.perm_append_comm_assoc ..)

theorem exists_of_mem_gather {roll : Roll S} (hdistinct : (roll.map Prod.fst).Nodup) {x : A}
    (h : x ∈ roll.gather f) : ∃ t, x ∈ f (roll.get base t) := by
  obtain ⟨⟨t, g⟩, hmem, hx⟩ := List.mem_flatMap.mp h
  refine ⟨t, ?_⟩
  rwa [get_of_mem hdistinct hmem]

end Roll

namespace Conduct

variable (C : Conduct μ)

/-- The standing of a thread after what it has done. -/
def next (t : Turn) (g : C.Standing) : Deed μ → C.Standing
  | .step s reply => C.after g s reply
  | .took job => C.take g job
  | .woke => C.wake t g

def roll : Trace μ → Roll C.Standing
  | [] => []
  | (t, deed) :: trace => (roll trace).put t (C.next t ((roll trace).get C.base t) deed)

def standing (trace : Trace μ) (t : Turn) : C.Standing := (C.roll trace).get C.base t

theorem standing_cons (trace : Trace μ) (t u : Turn) (deed : Deed μ) :
    C.standing ((t, deed) :: trace) u =
      if u = t then C.next t (C.standing trace t) deed else C.standing trace u :=
  Roll.get_put ..

theorem nodup_roll (trace : Trace μ) : ((C.roll trace).map Prod.fst).Nodup := by
  induction trace with
  | nil => exact List.nodup_nil
  | cons entry trace ih => exact Roll.nodup_put ih _ _

/-- Traces in which no thread takes a step that its standing does not allow. -/
inductive Lawful : Trace μ → World μ → Prop where
  | start (memory : μ) : Lawful [] (.start memory)
  | step {trace : Trace μ} {w w' : World μ} {t : Turn} {s : Step μ} {reply : s.Reply}
      (before : Lawful trace w) (allowed : C.allows (C.standing trace t) s)
      (world : s.run w = some (reply, w')) : Lawful ((t, .step s reply) :: trace) w'
  | took {trace : Trace μ} {w w' : World μ} {e : ExecutorId} {i : Nat} {job : Job}
      (before : Lawful trace w) (idle : C.rests (.worker e i) (C.standing trace (.worker e i)))
      (jobs : w.jobs.Perm (job :: w'.jobs))
      (world : w'.buses = w.buses ∧ w'.history = w.history ∧ w'.serial = w.serial ∧
        w'.tasks = w.tasks ∧ w'.declarations = w.declarations) :
      Lawful ((.worker e i, .took job) :: trace) w'
  | woke {trace : Trace μ} {w w' : World μ} {n : Nat} {body : CodeId}
      (before : Lawful trace w) (idle : C.rests (.task n) (C.standing trace (.task n)))
      (ready : w.tasks.get? n = some (.ready body))
      (world : w.Alike w') : Lawful ((.task n, .woke) :: trace) w'
  | rested {trace : Trace μ} {w w' : World μ} (before : Lawful trace w) (world : w.Alike w') :
      Lawful trace w'

/-- All programs that can run obey the conduct and leave a thread with nothing to do. -/
structure Governs (β : Behaviour μ) (depth : Nat) (body : Body μ α) : Prop where
  idle : ∀ t, C.rests t (C.base t)
  main : C.Obeys (C.base (.caller 0)) (β.run depth .main body) fun g _ => C.rests (.caller 0) g
  task : ∀ n work g, C.rests (.task n) g →
    C.Obeys (C.wake (.task n) g) (β.run depth (.started n) (β.work work))
      fun g _ => C.rests (.task n) g
  worker : ∀ e i job g, C.rests (.worker e i) g → C.trustsJob job →
    C.Obeys (C.take g job) (serve (β.client (β.perform depth (.worker e i))) e i job)
      fun g _ => C.rests (.worker e i) g

/-- What threads rely on is true as long as the first argument holds, which it does earlier if it
does later. -/
structure Reliable (covers : Trace μ → World μ → Prop) : Prop where
  earlier : ∀ deeds trace w w', w'.BusesExtend w → covers (deeds ++ trace) w' → covers trace w
  step : ∀ trace w t s reply, C.Lawful ((t, .step s reply) :: trace) w →
    covers ((t, .step s reply) :: trace) w → C.trusts s reply
  job : ∀ trace w t job, C.Lawful ((t, .took job) :: trace) w →
    covers ((t, .took job) :: trace) w → C.trustsJob job

/-- A thread that has a program obeys the conduct from its standing, and any other thread rests. -/
def Orderly (trace : Trace μ) (m : Machine μ α) (t : Turn) : Prop :=
  match m.program? t with
  | some p => C.Obeys (C.standing trace t) p fun g _ => C.rests t g
  | none => C.rests t (C.standing trace t)

variable {C}

theorem Orderly.of_some {trace : Trace μ} {m : Machine μ α} {t : Turn} {p : Proc μ Unit}
    (h : C.Orderly trace m t) (hp : m.program? t = some p) :
    C.Obeys (C.standing trace t) p fun g _ => C.rests t g := by
  rwa [Orderly, hp] at h

theorem Orderly.of_none {trace : Trace μ} {m : Machine μ α} {t : Turn}
    (h : C.Orderly trace m t) (hp : m.program? t = none) : C.rests t (C.standing trace t) := by
  rwa [Orderly, hp] at h

theorem obeys_silently {g : C.Standing} {p : Proc μ α} {P : C.Standing → Prop}
    (h : C.Obeys g p fun g _ => P g) : C.Obeys g p.silently fun g _ => P g :=
  Obeys.bind (h.mono fun _ _ hP => hP)

/-- The other threads do not notice what one thread did. -/
theorem orderly_cons {trace : Trace μ} {m m' : Machine μ α} {t : Turn} {deed : Deed μ}
    {p : Proc μ Unit} (h : ∀ u, C.Orderly trace m u)
    (hprograms : ∀ u, m'.program? u = if u = t then some p else m.program? u)
    (hp : C.Obeys (C.next t (C.standing trace t) deed) p fun g _ => C.rests t g) :
    ∀ u, C.Orderly ((t, deed) :: trace) m' u := by
  intro u
  rw [Orderly, hprograms, standing_cons]
  by_cases hu : u = t
  · subst hu
    simpa only [if_true] using hp
  · simp only [if_neg hu]
    exact h u

theorem Governs.orderly_start {β : Behaviour μ} {depth : Nat} {body : Body μ α}
    (h : C.Governs β depth body) (memory : μ) (t : Turn) :
    C.Orderly [] (Machine.start β depth memory body) t := by
  unfold Orderly
  cases t with
  | caller i =>
    cases i with
    | zero => exact obeys_silently h.main
    | succ i => exact h.idle _
  | _ => exact h.idle _

/-- Whatever the order of turns, all steps are allowed and all threads stay orderly. -/
theorem Run.lawful {β : Behaviour μ} {depth : Nat} {memory : μ} {body : Body μ α}
    {trace : Trace μ} {m : Machine μ α} {covers : Trace μ → World μ → Prop}
    (hgov : C.Governs β depth body) (hrel : C.Reliable covers)
    (hrun : Run β depth memory body trace m) (hcovers : covers trace m.world) :
    C.Lawful trace m.world ∧ ∀ t, C.Orderly trace m t := by
  induction hrun with
  | start => exact ⟨.start memory, hgov.orderly_start memory⟩
  | @turn trace m m' t before moved ih =>
    have hturned := Machine.turn_turned moved
    obtain ⟨hlawful, horderly⟩ := ih (hrel.earlier _ _ _ _ hturned.busesExtend hcovers)
    generalize m.deeds t = deeds at hturned hcovers ⊢
    cases hturned with
    | step program world programs =>
      have hobeys := (horderly t).of_some program
      have hlawful' := hlawful.step hobeys.1 world
      have htrust := hrel.step _ _ _ _ _ hlawful' hcovers
      exact ⟨hlawful', orderly_cons horderly programs (hobeys.2 _ htrust)⟩
    | took idle jobs world programs =>
      have hrests := (horderly _).of_none idle
      have hlawful' := hlawful.took hrests jobs world
      have htrust := hrel.job _ _ _ _ hlawful' hcovers
      exact ⟨hlawful', orderly_cons horderly programs (hgov.worker _ _ _ _ hrests htrust)⟩
    | woke idle ready world programs =>
      have hrests := (horderly _).of_none idle
      exact ⟨hlawful.woke hrests ready world,
        orderly_cons horderly programs (obeys_silently (hgov.task _ _ _ hrests))⟩
    | rested world programs =>
      refine ⟨hlawful.rested world, ?_⟩
      intro u
      rcases programs u with hsame | ⟨hnone, hdone⟩
      · rw [Orderly, hsame]
        exact horderly u
      · rw [Orderly, hnone]
        exact (horderly u).of_some hdone

end Conduct

end PubSub
