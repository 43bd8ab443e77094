import PubSub.Proofs.Effects

/-!
# Runs

A run is any sequence of turns of a machine that starts with one caller on a new world. Its trace
lists what the threads did, the latest first.
-/
namespace PubSub

variable {μ α : Type}

/-- One thing that a thread did. -/
inductive Deed (μ : Type) where
  | step (s : Step μ) (reply : s.Reply)
  /-- A worker took a job. -/
  | took (job : Job)
  /-- A task took up its work. -/
  | woke

/-- What was done in which turn, the latest first. -/
abbrev Trace (μ : Type) := List (Turn × Deed μ)

/-- The program without its answer. -/
def Program.silently (p : Proc μ α) : Proc μ Unit := p.bind fun _ => .done ()

namespace Machine

/-- One caller that runs a body on the main thread of a new world. -/
def start (β : Behaviour μ) (depth : Nat) (memory : μ) (body : Body μ α) : Machine μ α :=
  ⟨.start memory, [β.run depth .main body], .empty, .empty⟩

/-- What a thread still has to do. -/
def program? (m : Machine μ α) : Turn → Option (Proc μ Unit)
  | .caller i => m.callers[i]?.map Program.silently
  | .task n => (m.tasks.get? n).map Program.silently
  | .worker e i => m.workers.get? (e, i)
  | .pass _ => none

/-- What is done in a turn. -/
def deeds (m : Machine μ α) (t : Turn) : List (Deed μ) :=
  match m.program? t with
  | some (.step s _) => (s.run m.world).toList.map fun (reply, _) => .step s reply
  | some _ => []
  | none =>
    match t with
    | .worker e i => ((m.world.pool e).take i).toList.map fun (job, _) => .took job
    | .task _ => [.woke]
    | _ => []

end Machine

/-- A change of the world in which nothing is done. -/
structure World.Alike (w w' : World μ) : Prop where
  declarations : w'.declarations = w.declarations
  buses : w'.buses = w.buses
  history : w'.history = w.history
  serial : w'.serial = w.serial
  jobs : w'.jobs.Perm w.jobs
  tasks : ∀ n body, w'.tasks.get? n = some (.ready body) → w.tasks.get? n = some (.ready body)

namespace Machine

variable (β : Behaviour μ) (depth : Nat) (m m' : Machine μ α)

/-- What a turn can do to a machine. -/
inductive Turned : Turn → List (Deed μ) → Prop where
  | step {t : Turn} {s : Step μ} {next : s.Reply → Proc μ Unit} {reply : s.Reply}
      (program : m.program? t = some (.step s next))
      (world : s.run m.world = some (reply, m'.world))
      (programs : ∀ u, m'.program? u = if u = t then some (next reply) else m.program? u) :
      Turned t [.step s reply]
  | took {e : ExecutorId} {i : Nat} {job : Job}
      (idle : m.program? (.worker e i) = none)
      (jobs : m.world.jobs.Perm (job :: m'.world.jobs))
      (world : m'.world.buses = m.world.buses ∧ m'.world.history = m.world.history ∧
        m'.world.serial = m.world.serial ∧ m'.world.tasks = m.world.tasks ∧
        m'.world.declarations = m.world.declarations)
      (programs : ∀ u, m'.program? u = if u = .worker e i then
        some (serve (β.client (β.perform depth (.worker e i))) e i job) else m.program? u) :
      Turned (.worker e i) [.took job]
  | woke {n : Nat} {body : CodeId}
      (idle : m.program? (.task n) = none)
      (ready : m.world.tasks.get? n = some (.ready body))
      (world : m.world.Alike m'.world)
      (programs : ∀ u, m'.program? u = if u = .task n then
        some (Program.silently (β.run depth (.started n) (β.work body))) else m.program? u) :
      Turned (.task n) [.woke]
  | rested {t : Turn}
      (world : m.world.Alike m'.world)
      (programs : ∀ u, m'.program? u = m.program? u ∨
        m'.program? u = none ∧ m.program? u = some (.done ())) :
      Turned t []

variable {β depth m m'}

theorem advance_eq_some {ρ : Type} {w w' : World μ} {p p' : Proc μ ρ}
    (h : advance w p = some (p', w')) :
    ∃ s next reply, p = .step s next ∧ s.run w = some (reply, w') ∧ p' = next reply := by
  cases p with
  | done a => cases h
  | never => cases h
  | step s next =>
    obtain ⟨⟨reply, w₁⟩, hrun, heq⟩ := Option.map_eq_some_iff.mp h
    cases heq
    exact ⟨s, next, reply, rfl, hrun, rfl⟩

theorem deeds_step {t : Turn} {s : Step μ} {next : s.Reply → Proc μ Unit} {reply : s.Reply}
    {w' : World μ} (hprogram : m.program? t = some (.step s next))
    (hrun : s.run m.world = some (reply, w')) : m.deeds t = [.step s reply] := by
  simp only [deeds, hprogram, hrun, Option.toList_some, List.map_singleton]

theorem deeds_done {t : Turn} (hprogram : m.program? t = some (.done ())) : m.deeds t = [] := by
  simp only [deeds, hprogram]

theorem turned_step {t : Turn} {s : Step μ} (next : s.Reply → Proc μ Unit) {reply : s.Reply}
    (hprogram : m.program? t = some (.step s next))
    (hrun : s.run m.world = some (reply, m'.world))
    (hprograms : ∀ u, m'.program? u = if u = t then some (next reply) else m.program? u) :
    Turned β depth m m' t (m.deeds t) := by
  rw [deeds_step hprogram hrun]
  exact .step hprogram hrun hprograms

theorem take_jobs {w : World μ} {e : ExecutorId} {i : Nat} {job : Job} {p : Pool Job}
    (h : (w.pool e).take i = some (job, p)) : w.jobs.Perm (job :: (w.setPool e p).jobs) := by
  refine (World.jobs_setPool [] [job] ?_ ?_).symm
  · rw [Pool.take] at h
    split at h
    · rename_i job' rest _ hqueue
      cases h
      rw [hqueue]
      exact .refl _
    · cases h
  · intro hnone
    rw [World.pool, hnone] at h
    cases h

theorem setPool_alike {w : World μ} {e : ExecutorId} {p : Pool Job}
    (h : p.queue = (w.pool e).queue) : w.Alike (w.setPool e p) :=
  ⟨rfl, rfl, rfl, rfl, World.jobs_setPool_of_queue_eq h, fun _ _ h => h⟩

theorem setTask_alike {w : World μ} {n : Nat} {task : Task} (h : ∀ body, task ≠ .ready body) :
    w.Alike (w.setTask n task) := by
  refine ⟨rfl, rfl, rfl, rfl, .refl _, ?_⟩
  intro n' body hn'
  simp only [World.setTask, Keyed.get?_insert] at hn'
  split at hn'
  · cases hn'
    exact absurd rfl (h body)
  · exact hn'

theorem turn_caller {i : Nat} (h : m.turn β depth (.caller i) = some m') :
    Turned β depth m m' (.caller i) (m.deeds (.caller i)) := by
  rw [turn] at h
  cases hcaller : m.callers[i]? with
  | none => rw [hcaller] at h; cases h
  | some p =>
    rw [hcaller] at h
    obtain ⟨⟨p', w'⟩, hadvance, heq⟩ := Option.map_eq_some_iff.mp h
    cases heq
    obtain ⟨s, next, reply, rfl, hrun, rfl⟩ := advance_eq_some hadvance
    refine turned_step (fun reply => (next reply).silently) ?_ hrun ?_
    · rw [program?, hcaller]
      rfl
    · intro u
      cases u with
      | caller i' =>
        by_cases hi : i' = i
        · subst hi
          rw [if_pos rfl, program?, List.getElem?_set_self (List.getElem?_eq_some_iff.mp hcaller).1]
          rfl
        · rw [if_neg fun he => hi (Turn.caller.inj he), program?,
            List.getElem?_set_ne fun he => hi he.symm]
          rfl
      | _ => rfl

/-- The programs of tasks after one of them changed. -/
theorem program?_insert_task {n : Nat} {w : World μ} (p : Proc μ (Option Payload)) (u : Turn) :
    program? { m with world := w, tasks := m.tasks.insert n p } u =
      if u = .task n then some p.silently else m.program? u := by
  cases u with
  | task n' =>
    simp only [program?, Keyed.get?_insert, Turn.task.injEq]
    split <;> rfl
  | _ => rfl

theorem program?_insert_worker {e : ExecutorId} {i : Nat} {w : World μ} (p : Proc μ Unit)
    (u : Turn) :
    program? { m with world := w, workers := m.workers.insert (e, i) p } u =
      if u = .worker e i then some p else m.program? u := by
  cases u with
  | worker e' i' => simp only [program?, Keyed.get?_insert, Prod.mk.injEq, Turn.worker.injEq]
  | _ => rfl

theorem turn_task {n : Nat} (h : m.turn β depth (.task n) = some m') :
    Turned β depth m m' (.task n) (m.deeds (.task n)) := by
  rw [turn] at h
  cases htask : m.tasks.get? n with
  | none =>
    rw [htask] at h
    have hidle : m.program? (.task n) = none := by rw [program?, htask]; rfl
    have hdeeds : m.deeds (.task n) = [.woke] := by simp only [deeds, hidle]
    dsimp only [beginTask] at h
    split at h
    · rename_i body hready
      cases h
      rw [hdeeds]
      exact .woke hidle hready (setTask_alike fun _ h => by cases h) (program?_insert_task _)
    · cases h
  | some p =>
    rw [htask] at h
    cases p with
    | done a =>
      cases h
      have hdone : m.program? (.task n) = some (.done ()) := by rw [program?, htask]; rfl
      rw [deeds_done hdone]
      refine .rested (setTask_alike fun _ h => by cases h) ?_
      intro u
      by_cases hu : u = .task n
      · subst hu
        refine .inr ⟨?_, hdone⟩
        simp only [program?, Keyed.get?_erase, if_true, Option.map_none]
      · refine .inl ?_
        cases u with
        | task n' =>
          simp only [program?, Keyed.get?_erase, if_neg fun he => hu (congrArg Turn.task he)]
        | _ => rfl
    | never => cases h
    | step s next =>
      obtain ⟨⟨p', w'⟩, hadvance, heq⟩ := Option.map_eq_some_iff.mp h
      cases heq
      obtain ⟨_, _, reply, hstep, hrun, rfl⟩ := advance_eq_some hadvance
      cases hstep
      refine turned_step (fun reply => (next reply).silently) ?_ hrun ?_
      · rw [program?, htask]
        rfl
      · exact program?_insert_task _

theorem turn_worker {e : ExecutorId} {i : Nat} (h : m.turn β depth (.worker e i) = some m') :
    Turned β depth m m' (.worker e i) (m.deeds (.worker e i)) := by
  rw [turn] at h
  cases hworker : m.workers.get? (e, i) with
  | none =>
    rw [hworker] at h
    have hidle : m.program? (.worker e i) = none := hworker
    dsimp only [begin] at h
    split at h
    · rename_i job p htake
      cases h
      have hdeeds : m.deeds (.worker e i) = [.took job] := by
        simp only [deeds, hidle, htake, Option.toList_some, List.map_singleton]
      rw [hdeeds]
      exact .took hidle (take_jobs htake) ⟨rfl, rfl, rfl, rfl, rfl⟩ (program?_insert_worker _)
    · rename_i htake
      obtain ⟨p, hleave, rfl⟩ := Option.map_eq_some_iff.mp h
      have hdeeds : m.deeds (.worker e i) = [] := by
        simp only [deeds, hidle, htake, Option.toList_none, List.map_nil]
      rw [hdeeds]
      refine .rested (setPool_alike ?_) fun _ => .inl rfl
      rw [Pool.leave] at hleave
      split at hleave
      · split at hleave <;> cases hleave
        rfl
      · cases hleave
  | some p =>
    rw [hworker] at h
    cases p with
    | done a =>
      obtain ⟨p, hfinish, rfl⟩ := Option.map_eq_some_iff.mp h
      have hdone : m.program? (.worker e i) = some (.done ()) := hworker
      rw [deeds_done hdone]
      refine .rested (setPool_alike ?_) ?_
      · rw [Pool.finish] at hfinish
        split at hfinish <;> cases hfinish
        rfl
      · intro u
        by_cases hu : u = .worker e i
        · subst hu
          refine .inr ⟨?_, hdone⟩
          simp only [program?, Keyed.get?_erase, if_true]
        · refine .inl ?_
          cases u with
          | worker e' i' =>
            have hne : ¬ (e', i') = (e, i) := by
              intro he
              cases he
              exact hu rfl
            simp only [program?, Keyed.get?_erase, if_neg hne]
          | _ => rfl
    | never => cases h
    | step s next =>
      obtain ⟨⟨p', w'⟩, hadvance, heq⟩ := Option.map_eq_some_iff.mp h
      cases heq
      obtain ⟨_, _, reply, hstep, hrun, rfl⟩ := advance_eq_some hadvance
      cases hstep
      exact turned_step next hworker hrun (program?_insert_worker _)

theorem turn_turned {t : Turn} (h : m.turn β depth t = some m') :
    Turned β depth m m' t (m.deeds t) := by
  cases t with
  | caller i => exact turn_caller h
  | task n => exact turn_task h
  | worker e i => exact turn_worker h
  | pass milliseconds =>
    cases h
    exact .rested ⟨rfl, rfl, rfl, rfl, .refl _, fun _ _ h => h⟩ fun _ => .inl rfl

theorem Turned.busesExtend {t : Turn} {deeds : List (Deed μ)}
    (h : Turned β depth m m' t deeds) : m'.world.BusesExtend m.world := by
  cases h with
  | step program world programs => exact (Step.run_effect world).buses
  | took idle jobs world programs => exact Step.buses_of_eq world.1
  | woke idle ready world programs => exact Step.buses_of_eq world.buses
  | rested world programs => exact Step.buses_of_eq world.buses

end Machine

/-- The runs of a body: the traces that its machine can leave behind, and where it gets. -/
inductive Run (β : Behaviour μ) (depth : Nat) (memory : μ) (body : Body μ α) :
    Trace μ → Machine μ α → Prop where
  | start : Run β depth memory body [] (.start β depth memory body)
  | turn {trace : Trace μ} {m m' : Machine μ α} {t : Turn} (before : Run β depth memory body trace m)
      (moved : m.turn β depth t = some m') :
      Run β depth memory body ((m.deeds t).map (t, ·) ++ trace) m'

/-- What these turns do, if all of them are possible. -/
def Machine.play (β : Behaviour μ) (depth : Nat) (m : Machine μ α) :
    List Turn → Option (Trace μ × Machine μ α)
  | [] => some ([], m)
  | t :: rest =>
    match m.turn β depth t with
    | none => none
    | some m' => (m'.play β depth rest).map fun (trace, last) =>
        (trace ++ (m.deeds t).map (t, ·), last)

theorem Run.play {β : Behaviour μ} {depth : Nat} {memory : μ} {body : Body μ α} {before : Trace μ}
    {m : Machine μ α} (h : Run β depth memory body before m) {turns : List Turn} {trace : Trace μ}
    {last : Machine μ α} (hplay : m.play β depth turns = some (trace, last)) :
    Run β depth memory body (trace ++ before) last := by
  induction turns generalizing before m trace with
  | nil => cases hplay; exact h
  | cons t rest ih =>
    rw [Machine.play] at hplay
    split at hplay
    · cases hplay
    · rename_i m' hmoved
      obtain ⟨⟨later, last'⟩, hrest, heq⟩ := Option.map_eq_some_iff.mp hplay
      cases heq
      rw [List.append_assoc]
      exact ih (h.turn hmoved) hrest

/-- Turns that are played from the start make a run. -/
theorem Run.of_play {β : Behaviour μ} {depth : Nat} {memory : μ} {body : Body μ α} {turns : List Turn}
    {trace : Trace μ} {m : Machine μ α}
    (hplay : (Machine.start β depth memory body).play β depth turns = some (trace, m)) :
    Run β depth memory body trace m := by
  have hrun := Run.start.play hplay
  rwa [List.append_nil] at hrun

/-- What a check says about the turns that it has played from the start, it says about a run. -/
theorem Run.exists_of_play {β : Behaviour μ} {depth : Nat} {memory : μ} {body : Body μ α}
    {turns : List Turn} {check : Trace μ × Machine μ α → Bool}
    (h : ((Machine.start β depth memory body).play β depth turns).any check = true) :
    ∃ trace m, Run β depth memory body trace m ∧ check (trace, m) = true := by
  obtain ⟨⟨trace, m⟩, hplay, hcheck⟩ := (Option.any_eq_true ..).mp h
  exact ⟨trace, m, .of_play hplay, hcheck⟩

end PubSub
