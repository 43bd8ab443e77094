import PubSub.Proofs.Course

/-!
# Programs that nothing holds up

A program whose steps are always possible, whatever other threads do in between, comes to its end
whenever its thread is given enough turns. While a failure is handed to observers, only their own code
can keep a thread waiting.
-/
namespace PubSub

open Program

variable {μ α γ δ : Type} {P : World μ → Prop} {first w w' : World μ} {b : BusId}

/-- As long as `P` holds of the world, whatever has happened in between, each step of the program is
possible when it comes, and in the end the program answers like this. -/
def Proc.Unhindered (P : World μ → Prop) : Proc μ γ → (γ → Prop) → Prop
  | .done a, Q => Q a
  | .never, _ => False
  | .step s next, Q => ∀ w, P w → s.possible w = true ∧
      ∀ reply w', s.run w = some (reply, w') → Unhindered P (next reply) Q

namespace Proc

variable {p : Proc μ γ} {f : γ → Proc μ δ} {Q : γ → Prop} {R : δ → Prop}

theorem Unhindered.mono {Q' : γ → Prop} (h : Unhindered P p Q) (hQ : ∀ a, Q a → Q' a) :
    Unhindered P p Q' := by
  induction p with
  | done a => exact hQ a h
  | never => exact h
  | step s next ih =>
    intro w hw
    obtain ⟨hpossible, hnext⟩ := h w hw
    exact ⟨hpossible, fun reply w' hrun => ih reply (hnext reply w' hrun)⟩

theorem unhindered_bind :
    Unhindered P (p.bind f) R ↔ Unhindered P p fun a => Unhindered P (f a) R := by
  induction p with
  | done a => rfl
  | never => rfl
  | step s next ih =>
    exact forall₂_congr fun w _ => and_congr_right fun _ => forall₃_congr fun reply w' _ => ih reply

theorem Unhindered.bind (h : Unhindered P p Q) (hf : ∀ a, Q a → Unhindered P (f a) R) :
    Unhindered P (p.bind f) R := unhindered_bind.mpr (h.mono hf)

theorem unhindered_ask {s : Step μ} {Q : s.Reply → Prop} (hpossible : ∀ w, P w → s.possible w = true)
    (hreply : ∀ w reply w', P w → s.run w = some (reply, w') → Q reply) : Unhindered P (ask s) Q :=
  fun w hw => ⟨hpossible w hw, fun reply w' hrun => hreply w reply w' hw hrun⟩

/-- A step that is always possible. -/
theorem unhindered_free {s : Step μ} (h : ∀ w, s.possible w = true) :
    Unhindered P (ask s) fun _ => True :=
  unhindered_ask (fun w _ => h w) fun _ _ _ _ _ => trivial

theorem unhindered_record (t : Thread) (o : Occurrence) :
    Unhindered P (record t o) fun _ => True := unhindered_free fun _ => rfl

/-- A bus that is open stays open, with the same configuration. -/
theorem unhindered_readBus (hP : ∀ w, P w → w.BusesExtend first) (hb : b < first.buses.length) :
    Unhindered P (readBus b) fun bus =>
      bus.settings = (first.bus b).settings ∧ bus.discipline = (first.bus b).discipline := by
  apply unhindered_ask
  · intro w hw
    obtain ⟨bus, hbus, -⟩ := hP w hw b _ (World.getElem?_buses hb)
    simp [Step.possible, hbus]
  · intro w bus w' hw hrun
    obtain ⟨bus', hbus, hextends⟩ := hP w hw b _ (World.getElem?_buses hb)
    rw [Step.run, hbus] at hrun
    cases hrun
    exact ⟨hextends.settings, hextends.discipline⟩

theorem unhindered_forEach {A : Type} (items : List A) {f : A → Proc μ Unit}
    (hf : ∀ a ∈ items, Unhindered P (f a) fun _ => True) :
    Unhindered P (forEach items f) fun _ => True := by
  induction items with
  | nil => trivial
  | cons a items ih =>
    obtain ⟨ha, hitems⟩ := List.forall_mem_cons.mp hf
    exact ha.bind fun _ _ => ih hitems

/-- Only the code of the observers can hold up a thread that tells them of a failure. -/
theorem unhindered_tellAll (hP : ∀ w, P w → w.BusesExtend first) {client : Client μ} {i : Invocation}
    (hb : i.bus < first.buses.length)
    (hobserved : ∀ label name body, .custom label name body ∈ (first.bus i.bus).settings.observers →
      ∀ failure, Unhindered P (client.observe body failure) fun _ => True) (t : Thread) (cause : Cause) :
    Unhindered P (tellAll client t i cause) fun _ => True := by
  refine (unhindered_readBus hP hb).bind fun bus hbus => ?_
  refine (unhindered_forEach _ ?_).bind fun _ _ => trivial
  intro entry hmem
  obtain ⟨observer, place⟩ := entry
  refine (unhindered_record t _).bind fun _ _ => ?_
  cases observer with
  | log => trivial
  | custom label title body =>
    have htold : Observer.custom label title body ∈ (first.bus i.bus).settings.observers := by
      rw [← hbus.1]
      refine (List.mem_cons.mp (List.fst_mem_of_mem_zipIdx hmem)).resolve_left fun heq => ?_
      cases heq
    refine (hobserved label title body htold _).bind fun ended _ => ?_
    cases ended with
    | none => trivial
    | some payload => exact unhindered_record t _

end Proc

namespace Machine

variable {β : Behaviour μ} {depth : Nat} {m m₁ m' : Machine μ α} {t : Turn} {p : Proc μ γ}
  {next : γ → Proc μ Unit} {Q : γ → Prop} {later : Trace μ}

/-- A course may start with a turn. -/
theorem Course.of_turn (moved : m.turn β depth t = some m₁) (hcourse : m₁.Course β depth later m') :
    m.Course β depth (later ++ (m.deeds t).map (t, ·)) m' := by
  induction hcourse with
  | now =>
    have hturn := Course.now.turn moved
    rwa [List.append_nil] at hturn
  | turn before moved' ih =>
    rw [List.append_assoc]
    exact ih.turn moved'

theorem Course.trans {more : Trace μ} (h : m.Course β depth later m₁)
    (h' : m₁.Course β depth more m') : m.Course β depth (more ++ later) m' := by
  induction h' with
  | now => exact h
  | turn _ moved ih =>
    rw [List.append_assoc]
    exact ih.turn moved

theorem course_of_play {turns : List Turn} (h : m.play β depth turns = some (later, m')) :
    m.Course β depth later m' := by
  induction turns generalizing m later with
  | nil =>
    cases h
    exact .now
  | cons u turns ih =>
    rw [play] at h
    split at h
    · cases h
    · rename_i m₂ hmoved
      obtain ⟨⟨rest, last⟩, hrest, heq⟩ := Option.map_eq_some_iff.mp h
      cases heq
      exact (ih hrest).of_turn hmoved

/-- How far a thread has got with a program: it has come to the end, or it still has to do the rest. -/
inductive Stands (P : World μ → Prop) (p : Proc μ γ) (next : γ → Proc μ Unit) (later : Trace μ)
    (m : Machine μ α) (t : Turn) : Prop where
  | ended {deeds : List (Deed μ)} {a : γ} (done : deeds <+: later.deedsOf t) (ends : Proc.Ends p deeds a)
  | underway {left : Proc μ γ} (program : m.program? t = some (left.bind next))
      (free : Proc.Unhindered P left fun _ => True)
      (onward : ∀ deeds a, Proc.Ends left deeds a → Proc.Ends p (later.deedsOf t ++ deeds) a)

/-- In a turn a thread takes a step of its program, or nothing happens to the program. -/
theorem Turned.program_cases {u : Turn} {deeds : List (Deed μ)} (h : Turned β depth m m' u deeds)
    {s : Step μ} {k : s.Reply → Proc μ Unit} (hprogram : m.program? t = some (.step s k)) :
    (u = t ∧ ∃ reply, deeds = [.step s reply] ∧ s.run m.world = some (reply, m'.world) ∧
      m'.program? t = some (k reply)) ∨
    (m'.program? t = m.program? t ∧ Trace.deedsOf (deeds.map (u, ·)) t = []) := by
  have hidle : m.program? u = none → u ≠ t := by
    rintro hnone rfl
    cases hnone.symm.trans hprogram
  have hquiet : u ≠ t → Trace.deedsOf (deeds.map (u, ·)) t = [] := by
    intro hu
    apply Trace.deedsOf_eq_nil
    intro entry hentry
    obtain ⟨deed, -, rfl⟩ := List.mem_map.mp hentry
    exact hu
  cases h with
  | @step _ s' k' reply program world programs =>
    by_cases hu : u = t
    · subst hu
      cases hprogram.symm.trans program
      exact .inl ⟨rfl, reply, rfl, world, (programs u).trans (if_pos rfl)⟩
    · exact .inr ⟨(programs t).trans (if_neg fun heq => hu heq.symm), hquiet hu⟩
  | took idle _ _ programs =>
    have hu := hidle idle
    exact .inr ⟨(programs t).trans (if_neg fun heq => hu heq.symm), hquiet hu⟩
  | woke idle _ _ programs =>
    have hu := hidle idle
    exact .inr ⟨(programs t).trans (if_neg fun heq => hu heq.symm), hquiet hu⟩
  | rested _ programs =>
    refine .inr ⟨(programs t).resolve_right fun hdone => ?_, rfl⟩
    cases hdone.2.symm.trans hprogram

theorem Stands.turn {u : Turn} (h : Stands P p next later m t) (hP : P m.world)
    (moved : m.turn β depth u = some m') :
    Stands P p next ((m.deeds u).map (u, ·) ++ later) m' t := by
  have hgrows := Trace.deedsOf_append ((m.deeds u).map (u, ·)) later t
  cases h with
  | ended done ends => exact .ended (done.trans ⟨_, hgrows.symm⟩) ends
  | @underway left program free onward =>
    cases left with
    | done a =>
      have hends := onward [] a (.done a)
      rw [List.append_nil] at hends
      exact .ended ⟨_, hgrows.symm⟩ hends
    | never => exact free.elim
    | step s k =>
      rcases (turn_turned moved).program_cases program with
        ⟨rfl, reply, hdeeds, hrun, hprogram⟩ | ⟨hprogram, hquiet⟩
      · refine .underway hprogram ((free _ hP).2 reply _ hrun) fun deeds a hends => ?_
        rw [hgrows, hdeeds, List.map_singleton, Trace.deedsOf_singleton, List.append_assoc]
        exact onward _ a (.step hends)
      · refine .underway (hprogram.trans program) free fun deeds a hends => ?_
        rw [hgrows, hquiet, List.append_nil]
        exact onward deeds a hends

/-- A thread that nothing holds up can come to the end of its program while nobody else moves. -/
theorem exists_course_of_unhindered (hP : ∀ later m', m.Course β depth later m' → P m'.world)
    (hprogram : m.program? t = some (p.bind next)) (hfree : Proc.Unhindered P p Q) :
    ∃ more m' a, m.Course β depth more m' ∧ (∀ entry ∈ more, entry.1 = t) ∧
      Proc.Ends p (more.deedsOf t) a := by
  induction p generalizing m with
  | done a => exact ⟨[], m, a, .now, List.forall_mem_nil _, .done a⟩
  | never => exact hfree.elim
  | step s k ih =>
    obtain ⟨hpossible, hnext⟩ := hfree _ (hP [] m .now)
    obtain ⟨m₁, hmoved⟩ := Option.isSome_iff_exists.mp (isSome_turn β depth hprogram hpossible)
    rw [Step.possible_eq_isSome] at hpossible
    obtain ⟨⟨reply, w₁⟩, hrun⟩ := Option.isSome_iff_exists.mp hpossible
    have hdeeds : m.deeds t = [.step s reply] := deeds_step hprogram hrun
    have hturned := turn_turned hmoved
    rw [hdeeds] at hturned
    cases hturned with
    | step program world programs =>
      cases hprogram.symm.trans program
      cases hrun.symm.trans world
      obtain ⟨more, m', a, hcourse, hmine, hends⟩ := ih reply
        (fun later m' hlater => hP _ m' (hlater.of_turn hmoved)) ((programs t).trans (if_pos rfl))
        (hnext reply _ hrun)
      have hwhole := hcourse.of_turn hmoved
      rw [hdeeds, List.map_singleton] at hwhole
      refine ⟨_, m', a, hwhole, ?_, ?_⟩
      · exact List.forall_mem_append.mpr ⟨hmine, List.forall_mem_singleton.mpr rfl⟩
      · rw [Trace.deedsOf_append, Trace.deedsOf_singleton]
        exact .step hends

/-- Whatever other threads have done since a thread began with a program that nothing holds up, it can
come to the end of it by itself. -/
theorem Course.exists_end_of_unhindered (hcourse : m.Course β depth later m')
    (hP : ∀ later m', m.Course β depth later m' → P m'.world)
    (hprogram : m.program? t = some (p.bind next)) (hfree : Proc.Unhindered P p fun _ => True) :
    ∃ more m'' deeds a, m'.Course β depth more m'' ∧ (∀ entry ∈ more, entry.1 = t) ∧
      deeds <+: (more ++ later).deedsOf t ∧ Proc.Ends p deeds a := by
  have hstands : Stands P p next later m' t := by
    induction hcourse with
    | now => exact .underway hprogram hfree fun _ _ hends => hends
    | turn before moved ih => exact ih.turn (hP _ _ before) moved
  cases hstands with
  | ended done ends => exact ⟨[], m', _, _, .now, List.forall_mem_nil _, done, ends⟩
  | underway program free onward =>
    obtain ⟨more, m'', a, hmore, hmine, hends⟩ := exists_course_of_unhindered
      (fun more m'' hmore => hP _ m'' (hcourse.trans hmore)) program free
    refine ⟨more, m'', _, a, hmore, hmine, ?_, onward _ a hends⟩
    exact ⟨[], by rw [Trace.deedsOf_append, List.append_nil]⟩

end Machine

end PubSub
