import PubSub.Proofs.Alone
import PubSub.Proofs.Run

/-!
# What threads cannot tell

No step reads the history. So worlds that differ only in what has happened in them cannot be told
apart: all threads get the same replies in the same turns, now and ever after.
-/
namespace PubSub

variable {μ α : Type}

namespace World

/-- The world with an older past behind its history. -/
def after (w : World μ) (past : List Entry) : World μ := { w with history := w.history ++ past }

/-- The world with nothing in its history. -/
def blank (w : World μ) : World μ := { w with history := [] }

variable (w : World μ) (past : List Entry)

@[simp] theorem after_blank : w.blank.after w.history = w := rfl

@[simp] theorem blank_after : (w.after past).blank = w.blank := rfl

@[simp] theorem blank_record (t : Thread) (o : Occurrence) : (w.record t o).blank = w.blank := rfl

@[simp] theorem bus_blank (b : BusId) : w.blank.bus b = w.bus b := rfl

@[simp] theorem bus_after (b : BusId) : (w.after past).bus b = w.bus b := rfl

@[simp] theorem pool_after (e : ExecutorId) : (w.after past).pool e = w.pool e := rfl

@[simp] theorem tasks_after : (w.after past).tasks = w.tasks := rfl

/-- A step that waits for a condition and learns nothing. -/
theorem waits_after (condition : Prop) [Decidable condition] :
    (if condition then some ((), w.after past) else none) =
      (if condition then some ((), w) else none).map fun r => (r.1, r.2.after past) := by
  split <;> rfl

theorem recordAll_after (t : Thread) (os : List Occurrence) :
    (w.after past).recordAll t os = (w.recordAll t os).after past := by
  induction os generalizing w with
  | nil => rfl
  | cons o os ih => exact ih (w.record t o)

end World

/-- A step does the same whatever has happened before, and adds the same to the history. -/
theorem Step.run_after (s : Step μ) (w : World μ) (past : List Entry) :
    s.run (w.after past) = (s.run w).map fun r => (r.1, r.2.after past) := by
  cases s with
  | computeTable thread b type =>
    rw [run, World.recordAll_after]
    rfl
  | readBus b | keepTable b type table | share b handler | acquire b lock thread | send e job =>
    simp only [run, Option.map_map]
    rfl
  | enrol b owner added =>
    simp only [run, World.bus_after]
    cases (w.bus b).roster.enrol owner added <;> rfl
  | dismiss b owner =>
    simp only [run, World.bus_after]
    cases (w.bus b).roster.dismiss owner <;> rfl
  | borrow e =>
    simp only [run, World.pool_after]
    cases (w.pool e).borrow <;> rfl
  | join e worker => exact w.waits_after past ((w.pool e).hasLeft worker = true)
  | joinTask task =>
    exact World.waits_after { w with tasks := w.tasks.erase task } past (w.tasks.get? task = some .ended)
  | rest thread => exact w.waits_after past (w.isAtRest thread = true)
  | await condition deadline =>
    exact w.waits_after past ((condition w.memory || decide (deadline ≤ w.time)) = true)
  | _ => rfl

theorem Proc.alone_after (p : Proc μ α) (w : World μ) (past : List Entry) :
    p.alone (w.after past) = (p.alone w).map fun r => (r.1, r.2.after past) := by
  induction p generalizing w with
  | done a => rfl
  | never => rfl
  | step s next ih =>
    rw [alone_step, alone_step, Step.run_after, Option.bind_map, Option.map_bind]
    congr 1
    funext r
    exact ih r.1 r.2

namespace Machine

/-- The machine with an older past behind its history. -/
def after (m : Machine μ α) (past : List Entry) : Machine μ α :=
  { m with world := m.world.after past }

/-- The machine with nothing in its history. -/
def blank (m : Machine μ α) : Machine μ α := { m with world := m.world.blank }

variable {β : Behaviour μ} {depth : Nat} (m : Machine μ α) (past : List Entry)

@[simp] theorem world_after : (m.after past).world = m.world.after past := rfl

@[simp] theorem callers_after : (m.after past).callers = m.callers := rfl

@[simp] theorem tasks_after : (m.after past).tasks = m.tasks := rfl

@[simp] theorem workers_after : (m.after past).workers = m.workers := rfl

theorem advance_after {γ : Type} (p : Proc μ γ) (w : World μ) :
    advance (w.after past) p = (advance w p).map fun r => (r.1, r.2.after past) := by
  cases p with
  | done a => rfl
  | never => rfl
  | step s next =>
    rw [advance, advance, Step.run_after, Option.map_map, Option.map_map]
    rfl

theorem begin_after (e : ExecutorId) (i : Nat) :
    (m.after past).begin β depth e i = (m.begin β depth e i).map (·.after past) := by
  cases htake : (m.world.pool e).take i with
  | some taken =>
    simp only [begin, world_after, World.pool_after, htake]
    rfl
  | none =>
    simp only [begin, world_after, World.pool_after, htake, Option.map_map]
    rfl

theorem beginTask_after (n : Nat) :
    (m.after past).beginTask β depth n = (m.beginTask β depth n).map (·.after past) := by
  rcases hready : m.world.tasks.get? n with _ | ⟨_ | _ | _⟩ <;>
    (simp only [beginTask, world_after, World.tasks_after, hready]; rfl)

/-- Nobody's turn depends on what has happened before. -/
theorem turn_after (t : Turn) :
    (m.after past).turn β depth t = (m.turn β depth t).map (·.after past) := by
  cases t with
  | caller i =>
    cases hcaller : m.callers[i]? with
    | none => simp only [turn, callers_after, hcaller, Option.map_none]
    | some p =>
      simp only [turn, callers_after, hcaller, world_after, advance_after, Option.map_map]
      rfl
  | task n =>
    rcases htask : m.tasks.get? n with _ | ⟨_ | _ | _⟩
    · simp only [turn, tasks_after, htask, beginTask_after]
    · simp only [turn, tasks_after, htask]
      rfl
    · simp only [turn, tasks_after, htask, world_after, advance_after, Option.map_map]
      rfl
    · simp only [turn, tasks_after, htask, world_after, advance_after, Option.map_map]
      rfl
  | worker e i =>
    rcases hworker : m.workers.get? (e, i) with _ | ⟨_ | _ | _⟩
    · simp only [turn, workers_after, hworker, begin_after]
    · simp only [turn, workers_after, hworker, world_after, World.pool_after, Option.map_map]
      rfl
    · simp only [turn, workers_after, hworker, world_after, advance_after, Option.map_map]
      rfl
    · simp only [turn, workers_after, hworker, world_after, advance_after, Option.map_map]
      rfl
  | pass milliseconds => rfl

theorem deeds_after (t : Turn) : (m.after past).deeds t = m.deeds t := by
  have hprogram : (m.after past).program? t = m.program? t := by cases t <;> rfl
  rcases h : m.program? t with _ | ⟨_ | _ | _⟩
  · cases t <;> simp only [deeds, hprogram, h, world_after, World.pool_after]
  · simp only [deeds, hprogram, h]
  · simp only [deeds, hprogram, h]
  · simp only [deeds, hprogram, h, world_after, Step.run_after]
    cases Step.run m.world _ <;> rfl

/-- The machine does the same in the same turns whatever has happened before. -/
theorem play_after (turns : List Turn) : (m.after past).play β depth turns =
    (m.play β depth turns).map fun r => (r.1, r.2.after past) := by
  induction turns generalizing m with
  | nil => rfl
  | cons t turns ih =>
    rw [play, play, turn_after, deeds_after]
    cases m.turn β depth t with
    | none => rfl
    | some m' =>
      dsimp only [Option.map_some]
      rw [ih, Option.map_map, Option.map_map]
      rfl

/-- What can be seen of a play: what was done, with the replies, and all that there is in the end,
history aside. -/
def seen (played : Trace μ × Machine μ α) : Trace μ × Machine μ α := (played.1, played.2.blank)

theorem seen_play_after (turns : List Turn) :
    ((m.after past).play β depth turns).map seen = (m.play β depth turns).map seen := by
  rw [play_after, Option.map_map]
  rfl

end Machine

/-- Nobody can tell that the first world has become the second: the tables of all buses are as they
were, every call would get the same answer, and whoever goes on from here does the same, gets the same
replies and leaves the same behind, however turns are taken. -/
structure World.Unnoticed (β : Behaviour μ) (w w' : World μ) : Prop where
  bus_eq : ∀ b, w'.bus b = w.bus b
  answers : ∀ depth t (c : Call μ), ((β.perform depth t c).alone w').map Prod.fst =
    ((β.perform depth t c).alone w).map Prod.fst
  plays : ∀ {α : Type} depth (m : Machine μ α) turns,
    ({ m with world := w' }.play β depth turns).map Machine.seen =
      ({ m with world := w }.play β depth turns).map Machine.seen

/-- Worlds that differ only in their histories cannot be told apart. -/
theorem World.unnoticed_of_blank {w w' : World μ} (h : w'.blank = w.blank) (β : Behaviour μ) :
    w.Unnoticed β w' := by
  have hw : w = w.blank.after w.history := rfl
  have hw' : w' = w.blank.after w'.history := h ▸ rfl
  refine ⟨fun b => ?_, fun depth t c => ?_, fun depth m turns => ?_⟩
  · rw [← w'.bus_blank, h, w.bus_blank]
  · rw [hw, hw', Proc.alone_after, Proc.alone_after, Option.map_map, Option.map_map]
    rfl
  · let start : Machine μ _ := { m with world := w.blank }
    have hsame : ((start.after w'.history).play β depth turns).map Machine.seen =
        ((start.after w.history).play β depth turns).map Machine.seen :=
      (start.seen_play_after _ turns).trans (start.seen_play_after _ turns).symm
    rw [hw, hw']
    exact hsame

end PubSub
