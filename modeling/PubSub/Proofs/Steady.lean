import PubSub.Proofs.Alone
import PubSub.Proofs.Records

/-!
# Programs that nothing else disturbs

A steady step leaves the executors alone and does not depend on them, on the history or on the time. A
program that only asks for steady steps goes the same way if other threads meanwhile use executors, write
records or let time pass.
-/
namespace PubSub

variable {μ α γ : Type}

/-- A handler is called, or a failure is handed to an observer. -/
def Occurrence.isCallback : Occurrence → Bool
  | .called _ _ | .reported _ _ _ _ => true
  | _ => false

namespace World

/-- The calls of handlers and the reports of failures, the earliest first. -/
def callbacks (w : World μ) : List Occurrence := w.recorded Occurrence.isCallback

/-- Callbacks are added, and the executors stay as they are. -/
structure Adds (w w' : World μ) (lines : List Occurrence) : Prop where
  executors : w'.executors = w.executors
  callbacks : w'.callbacks = w.callbacks ++ lines

/-- The worlds are the same for a thread that only asks for steady steps. -/
structure Matches (v w : World μ) : Prop where
  same : v = { w with executors := v.executors, history := v.history, time := v.time }
  callbacks : v.callbacks = w.callbacks

variable {u v w w' w'' : World μ} {lines more : List Occurrence}

theorem Adds.refl (w : World μ) : w.Adds w [] := ⟨rfl, (List.append_nil _).symm⟩

theorem Adds.trans (h : w.Adds w' lines) (h' : w'.Adds w'' more) : w.Adds w'' (lines ++ more) :=
  ⟨h'.executors.trans h.executors, by rw [h'.callbacks, h.callbacks, List.append_assoc]⟩

theorem adds_record (w : World μ) (t : Thread) (o : Occurrence) :
    w.Adds (w.record t o) ([o].filter Occurrence.isCallback) := ⟨rfl, recorded_record t o⟩

theorem Matches.refl (w : World μ) : w.Matches w := ⟨rfl, rfl⟩

theorem Matches.trans (h : u.Matches v) (h' : v.Matches w) : u.Matches w := by
  refine ⟨?_, h.callbacks.trans h'.callbacks⟩
  rw [h.same, h'.same]

theorem Matches.buses (h : v.Matches w) : v.buses = w.buses := by rw [h.same]

theorem Matches.memory (h : v.Matches w) : v.memory = w.memory := by rw [h.same]

/-- Executors and the time are nothing to the callbacks. -/
theorem matches_with (w : World μ) (executors : List Executor) (time : Nat) :
    { w with executors, time }.Matches w := ⟨rfl, rfl⟩

theorem matches_record (w : World μ) (t : Thread) {o : Occurrence} (ho : o.isCallback = false) :
    (w.record t o).Matches w := by
  refine ⟨rfl, ?_⟩
  rw [callbacks, recorded_record, List.filter_singleton, ho]
  exact List.append_nil _

end World

namespace Step

variable {s : Step μ} {reply : s.Reply} {v w w' : World μ}

def isSteady : Step μ → Bool
  | .readBus _ | .record _ _ | .computeTable _ _ _ | .keepTable _ _ _ | .share _ _ | .acquire _ _ _
  | .release _ _ | .unshare _ _ | .discard _ _ | .serial | .memory _ => true
  | _ => false

theorem callbacks_run (h : s.run w = some (reply, w')) :
    w'.callbacks = w.callbacks ++ s.occurrence?.toList.filter Occurrence.isCallback :=
  recorded_run h fun _ _ _ => rfl

theorem executors_of_isSteady (hs : s.isSteady = true) (h : s.run w = some (reply, w')) :
    w'.executors = w.executors := by
  cases s with
  | readBus | keepTable | share | acquire =>
    obtain ⟨_, -, heq⟩ := Option.map_eq_some_iff.mp h
    cases heq
    rfl
  | computeTable t b type =>
    cases h
    rw [World.recordAll_eq]
  | record | release | unshare | discard | serial | memory => cases h; rfl
  | _ => cases hs

/-- A steady step has the same reply and the same effect in worlds that match. -/
theorem exists_run_of_matches (hs : s.isSteady = true) (h : s.run w = some (reply, w'))
    (hv : v.Matches w) : ∃ v', s.run v = some (reply, v') ∧ v'.Matches w' := by
  suffices hsame : ∃ v', s.run v = some (reply, v') ∧
      v' = { w' with executors := v'.executors, history := v'.history, time := v'.time } by
    obtain ⟨v', hrun, hsame⟩ := hsame
    refine ⟨v', hrun, hsame, ?_⟩
    rw [callbacks_run hrun, callbacks_run h, hv.callbacks]
  have hsame := hv.same
  generalize v.executors = executors, v.history = history, v.time = time at hsame
  subst hsame
  cases s with
  | readBus | keepTable | share | acquire =>
    obtain ⟨_, hfound, heq⟩ := Option.map_eq_some_iff.mp h
    cases heq
    exact ⟨_, congrArg (Option.map _) hfound, rfl⟩
  | computeTable t b type =>
    cases h
    refine ⟨_, rfl, ?_⟩
    rw [World.recordAll_eq, w.recordAll_eq]
  | record | release | unshare | discard | serial | memory => cases h; exact ⟨_, rfl, rfl⟩
  | _ => cases hs

end Step

/-- By steady steps alone, the program comes to this answer and this world. -/
inductive Proc.Leads : Proc μ α → World μ → α → World μ → Prop where
  | done (a : α) (w : World μ) : Leads (.done a) w a w
  | step {s : Step μ} {next : s.Reply → Proc μ α} {reply : s.Reply} {w w₁ w' : World μ} {a : α}
      (steady : s.isSteady = true) (run : s.run w = some (reply, w₁))
      (rest : Leads (next reply) w₁ a w') : Leads (.step s next) w a w'

namespace Proc.Leads

variable {p : Proc μ α} {f : α → Proc μ γ} {v w w₁ w' : World μ} {a : α} {c : γ}

theorem alone (h : p.Leads w a w') : p.alone w = some (a, w') := by
  induction h with
  | done a w => rfl
  | step _ run _ ih =>
    rw [Proc.alone_step, run]
    exact ih

theorem bind (h : p.Leads w a w₁) (hf : (f a).Leads w₁ c w') : Proc.Leads (p.bind f) w c w' := by
  induction h with
  | done a w => exact hf
  | step steady run _ ih => exact .step steady run (ih hf)

theorem executors (h : p.Leads w a w') : w'.executors = w.executors := by
  induction h with
  | done a w => rfl
  | step steady run _ ih => exact ih.trans (Step.executors_of_isSteady steady run)

theorem isPrefix_callbacks (h : p.Leads w a w') : w.callbacks <+: w'.callbacks := by
  induction h with
  | done a w => exact List.prefix_rfl
  | step _ run _ ih => exact .trans ⟨_, (Step.callbacks_run run).symm⟩ ih

/-- Wherever the worlds match, the program goes the same way. -/
theorem exists_of_matches (h : p.Leads w a w') (hv : v.Matches w) :
    ∃ v', p.Leads v a v' ∧ v'.Matches w' := by
  induction h generalizing v with
  | done a w => exact ⟨v, .done a v, hv⟩
  | step steady run _ ih =>
    obtain ⟨v₁, hrun, hv₁⟩ := Step.exists_run_of_matches steady run hv
    obtain ⟨v', hrest, hv'⟩ := ih hv₁
    exact ⟨v', .step steady hrun hrest, hv'⟩

end Proc.Leads

theorem leads_readBus {w : World μ} {b : BusId} (hb : b < w.buses.length) :
    (Proc.readBus b).Leads w (w.bus b) w := by
  refine .step rfl ?_ (.done _ w)
  rw [Step.run, World.getElem?_buses hb]
  rfl

theorem leads_record (w : World μ) (t : Thread) (o : Occurrence) :
    (Proc.record t o).Leads w () (w.record t o) := .step rfl rfl (.done () _)

end PubSub
