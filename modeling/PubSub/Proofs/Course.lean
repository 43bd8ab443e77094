import PubSub.Proofs.Run

/-!
# Courses

How a machine goes on from some moment, and what a program comes to that a thread performs
meanwhile.
-/
namespace PubSub

open Program

variable {μ α γ δ : Type}

/-- How a machine can go on, with the trace that it leaves from this moment on. -/
inductive Machine.Course (β : Behaviour μ) (depth : Nat) (m : Machine μ α) :
    Trace μ → Machine μ α → Prop where
  | now : Course β depth m [] m
  | turn {later : Trace μ} {m₁ m₂ : Machine μ α} {t : Turn} (before : Course β depth m later m₁)
      (moved : m₁.turn β depth t = some m₂) :
      Course β depth m ((m₁.deeds t).map (t, ·) ++ later) m₂

theorem Run.course {β : Behaviour μ} {depth : Nat} {memory : μ} {body : Body μ α}
    {trace later : Trace μ} {m m' : Machine μ α} (h : Run β depth memory body trace m)
    (hlater : m.Course β depth later m') : Run β depth memory body (later ++ trace) m' := by
  induction hlater with
  | now => exact h
  | turn _ moved ih =>
    rw [List.append_assoc]
    exact ih.turn moved

/-- A course from the start is a run. -/
theorem Run.of_course {β : Behaviour μ} {depth : Nat} {memory : μ} {body : Body μ α} {trace : Trace μ}
    {m : Machine μ α} (h : (Machine.start β depth memory body).Course β depth trace m) :
    Run β depth memory body trace m := by
  have hrun := Run.start.course h
  rwa [List.append_nil] at hrun

/-- A run is a course from the start. -/
theorem Run.ofStart {β : Behaviour μ} {depth : Nat} {memory : μ} {body : Body μ α} {trace : Trace μ}
    {m : Machine μ α} (h : Run β depth memory body trace m) :
    (Machine.start β depth memory body).Course β depth trace m := by
  induction h with
  | start => exact .now
  | turn _ moved ih => exact ih.turn moved

/-- In one turn at most one thing is done. -/
theorem Machine.deeds_eq_of_mem {β : Behaviour μ} {depth : Nat} {m m' : Machine μ α} {t : Turn}
    (h : m.turn β depth t = some m') {deed : Deed μ} (hmem : deed ∈ m.deeds t) :
    m.deeds t = [deed] := by
  have hturned := turn_turned h
  generalize m.deeds t = deeds at hturned hmem ⊢
  cases hturned <;> first | cases hmem; done | rw [List.mem_singleton.mp hmem]

/-- Everything in a trace was done at some moment. -/
theorem Machine.Course.exists_moment {β : Behaviour μ} {depth : Nat} {m m' : Machine μ α}
    {trace after before : Trace μ} (h : m.Course β depth trace m') {t : Turn} {deed : Deed μ}
    (htrace : trace = after ++ (t, deed) :: before) : ∃ m₁ m₂, m.Course β depth before m₁ ∧
      m₁.turn β depth t = some m₂ ∧ m₁.deeds t = [deed] ∧ m₂.Course β depth after m' := by
  induction h generalizing after with
  | now => exact absurd htrace.symm (List.append_ne_nil_of_right_ne_nil _ (List.cons_ne_nil _ _))
  | @turn trace m₃ m₄ u course moved ih =>
    rcases hdeeds : m₃.deeds u with _ | ⟨deed', rest⟩
    · rw [hdeeds] at htrace
      obtain ⟨m₁, m₂, hbefore, hmoved, hdone, hafter⟩ := ih htrace
      have hlater := hafter.turn moved
      rw [hdeeds] at hlater
      exact ⟨m₁, m₂, hbefore, hmoved, hdone, hlater⟩
    · have hone := m₃.deeds_eq_of_mem moved (hdeeds ▸ List.mem_cons_self)
      rw [hone, List.map_singleton, List.singleton_append] at htrace
      cases after with
      | nil =>
        obtain ⟨heq, rfl⟩ := List.cons.inj htrace
        cases heq
        exact ⟨m₃, m₄, course, moved, hone, .now⟩
      | cons entry after =>
        obtain ⟨rfl, hrest⟩ := List.cons.inj htrace
        obtain ⟨m₁, m₂, hbefore, hmoved, hdone, hafter⟩ := ih hrest
        have hlater := hafter.turn moved
        rw [hone] at hlater
        exact ⟨m₁, m₂, hbefore, hmoved, hdone, hlater⟩

theorem Machine.Course.exists_moment_of_mem {β : Behaviour μ} {depth : Nat} {m m' : Machine μ α}
    {later : Trace μ} (h : m.Course β depth later m') {t : Turn} {deed : Deed μ}
    (hmem : (t, deed) ∈ later) : ∃ before after m₁ m₂, later = after ++ (t, deed) :: before ∧
      m.Course β depth before m₁ ∧ m₁.turn β depth t = some m₂ ∧ m₁.deeds t = [deed] ∧
        m₂.Course β depth after m' := by
  obtain ⟨after, before, htrace⟩ := List.append_of_mem hmem
  obtain ⟨m₁, m₂, hmoment⟩ := h.exists_moment htrace
  exact ⟨before, after, m₁, m₂, htrace, hmoment⟩

/-- Every step in a trace was taken in some world. -/
theorem Machine.Course.exists_step {β : Behaviour μ} {depth : Nat} {m m' : Machine μ α}
    {later : Trace μ} (h : m.Course β depth later m') {t : Turn} {s : Step μ} {reply : s.Reply}
    (hmem : (t, .step s reply) ∈ later) : ∃ (before after : Trace μ) (m₁ m₂ : Machine μ α),
      later = after ++ (t, .step s reply) :: before ∧ m.Course β depth before m₁ ∧
        s.run m₁.world = some (reply, m₂.world) ∧ m₂.Course β depth after m' := by
  obtain ⟨before, after, m₁, m₂, htrace, hbefore, hmoved, hdeeds, hafter⟩ := h.exists_moment_of_mem hmem
  have hturned := Machine.turn_turned hmoved
  rw [hdeeds] at hturned
  cases hturned with
  | step _ world _ => exact ⟨before, after, m₁, m₂, htrace, hbefore, world, hafter⟩

theorem Machine.Course.busesExtend {β : Behaviour μ} {depth : Nat} {m m' : Machine μ α}
    {later : Trace μ} (h : m.Course β depth later m') : m'.world.BusesExtend m.world := by
  induction h with
  | now => exact Step.buses_of_eq rfl
  | turn _ moved ih => exact (Machine.turn_turned moved).busesExtend.trans ih

/-- Nothing keeps a thread from taking a step that is possible. -/
theorem Machine.isSome_turn (β : Behaviour μ) (depth : Nat) {m : Machine μ α} {t : Turn} {s : Step μ}
    {next : s.Reply → Proc μ Unit} (hprogram : m.program? t = some (.step s next))
    (hpossible : s.possible m.world = true) : (m.turn β depth t).isSome = true := by
  rw [Step.possible_eq_isSome] at hpossible
  have hadvance : ∀ {γ : Type} {p : Proc μ γ}, p.silently = .step s next →
      (∃ s' next', p = .step s' next') ∧ (advance m.world p).isSome = true := by
    intro γ p hp
    cases p with
    | done a => cases hp
    | never => cases hp
    | step s' next' =>
      cases hp
      exact ⟨⟨s, next', rfl⟩, by rw [advance, Option.isSome_map]; exact hpossible⟩
  cases t with
  | caller i =>
    obtain ⟨p, hp, hsilent⟩ := Option.map_eq_some_iff.mp hprogram
    obtain ⟨-, hmoves⟩ := hadvance hsilent
    simp only [turn, hp, Option.isSome_map, hmoves]
  | task n =>
    obtain ⟨p, hp, hsilent⟩ := Option.map_eq_some_iff.mp hprogram
    obtain ⟨⟨s', next', rfl⟩, hmoves⟩ := hadvance hsilent
    simp only [turn, hp, Option.isSome_map, hmoves]
  | worker e i =>
    have hp : m.workers.get? (e, i) = some (.step s next) := hprogram
    simp only [turn, hp, advance, Option.isSome_map, hpossible]
  | pass milliseconds => cases hprogram

/-- What a thread has done, in the order in which it did it. -/
def Trace.deedsOf (trace : Trace μ) (t : Turn) : List (Deed μ) :=
  trace.reverse.filterMap fun (u, deed) => if u = t then some deed else none

theorem Trace.mem_deedsOf {trace : Trace μ} {t : Turn} {deed : Deed μ} :
    deed ∈ trace.deedsOf t ↔ (t, deed) ∈ trace := by
  rw [deedsOf, List.mem_filterMap]
  constructor
  · rintro ⟨⟨u, deed'⟩, hmem, heq⟩
    obtain ⟨hu, hdeed⟩ := Option.ite_none_right_eq_some.mp heq
    cases hu
    cases hdeed
    exact List.mem_reverse.mp hmem
  · intro hmem
    exact ⟨(t, deed), List.mem_reverse.mpr hmem, if_pos rfl⟩

theorem Trace.deedsOf_append (later trace : Trace μ) (t : Turn) :
    Trace.deedsOf (later ++ trace) t = trace.deedsOf t ++ later.deedsOf t := by
  rw [deedsOf, List.reverse_append, List.filterMap_append]
  rfl

theorem Trace.deedsOf_singleton (t : Turn) (deed : Deed μ) : Trace.deedsOf [(t, deed)] t = [deed] := by
  simp [deedsOf]

theorem Trace.deedsOf_eq_nil {trace : Trace μ} {t : Turn} (h : ∀ entry ∈ trace, entry.1 ≠ t) :
    trace.deedsOf t = [] := by
  rw [deedsOf, List.filterMap_eq_nil_iff]
  exact fun entry hentry => if_neg (h entry (List.mem_reverse.mp hentry))

/-- Performing these steps one after another, with these replies, a program comes to this answer. -/
inductive Proc.Ends : Proc μ γ → List (Deed μ) → γ → Prop where
  | done (a : γ) : Ends (.done a) [] a
  | step {s : Step μ} {next : s.Reply → Proc μ γ} {reply : s.Reply} {deeds : List (Deed μ)} {a : γ}
      (rest : Ends (next reply) deeds a) : Ends (.step s next) (.step s reply :: deeds) a

namespace Proc

variable {deeds : List (Deed μ)}

theorem ends_done {a c : γ} (h : Ends (μ := μ) (.done a) deeds c) : deeds = [] ∧ c = a := by
  cases h
  exact ⟨rfl, rfl⟩

theorem ends_bind {p : Proc μ γ} {f : γ → Proc μ δ} {c : δ} (h : Ends (p.bind f) deeds c) :
    ∃ a first rest, Ends p first a ∧ Ends (f a) rest c ∧ deeds = first ++ rest := by
  induction p generalizing deeds with
  | done a => exact ⟨a, [], deeds, .done a, h, rfl⟩
  | never => cases h
  | step s next ih =>
    cases h with
    | step rest =>
      obtain ⟨a, first, second, hfirst, hsecond, rfl⟩ := ih _ rest
      exact ⟨a, _, second, .step hfirst, hsecond, rfl⟩

/-- A program that starts with one step. -/
theorem ends_ask_bind {s : Step μ} {f : s.Reply → Proc μ γ} {a : γ}
    (h : Ends ((ask s).bind f) deeds a) :
    ∃ reply rest, deeds = .step s reply :: rest ∧ Ends (f reply) rest a := by
  cases h with
  | step rest => exact ⟨_, _, rfl, rest⟩

end Proc

end PubSub
