import Mathlib.Data.Nat.Init
import PubSub.Proofs.Mirrors

/-!
# One thread does everything

Runs in which the clients' code asks no other thread and no executor for anything. However deep posts
are nested in handlers, the thread never waits for the lock of a handler, every invocation gives back
what it has taken, and nobody can tell which handlers are exclusive.
-/
namespace PubSub

open Program

variable {μ α : Type}

/-- Nobody uses a lock. -/
def Tally.none : Tally := ⟨fun _ _ => 0, fun _ _ => 0⟩

namespace World

theorem attends_start (memory : μ) (t : Thread) : (start memory).Attends t .none where
  tracks _ := Locks.tracks_empty
  within _ _ := Nat.le_refl _
  sole _ := Locks.isSole_empty t
  publisher _ := rfl
  nobodyElse := ⟨rfl, rfl⟩

theorem isEven_start (memory : μ) : (start memory).IsEven := fun _ _ => rfl

theorem twins_start (memory : μ) (t : Thread) : (start memory).Twins t (start memory) where
  declarations := rfl
  length := rfl
  buses _ := ⟨rfl, rfl, rfl, rfl, Locks.isSole_empty t, Locks.isSole_empty t⟩
  publisher _ := rfl
  executors := rfl
  tasks := rfl
  history := rfl
  serial := rfl
  memory := rfl

end World

theorem Proc.Safely.attends {t : Thread} {w w' : World μ} {g : Tally} {p : Proc μ α}
    (h : p.Safely t w' fun _ w'' => w.Restores t g w'') : ∃ g, w'.Attends t g := by
  cases p with
  | done a => exact ⟨g, (h w'.time).attends⟩
  | never => exact h
  | step s next => exact (h w'.time).1.attended

/-- What is left of a program that one thread runs from the start, while nobody else does anything. -/
structure Machine.RunsAlone (start : World μ) (whole p : Proc μ α) (m : Machine μ α) : Prop where
  callers : m.callers = [p]
  tasks : m.tasks = .empty
  workers : m.workers = .empty
  safely : p.Safely .main m.world fun _ w' => start.Restores .main .none w'
  yields : ∀ a w', p.Yields m.world a w' → whole.Yields start a w'

namespace Machine.RunsAlone

variable {β : Behaviour μ} {depth : Nat} {start : World μ} {whole p : Proc μ α} {m m' : Machine μ α}

theorem of_turn (h : m.RunsAlone start whole p) {t : Turn} (hmoved : m.turn β depth t = some m') :
    ∃ p', m'.RunsAlone start whole p' := by
  obtain ⟨g, hworld⟩ := h.safely.attends
  cases t with
  | caller i =>
    rw [turn, h.callers] at hmoved
    cases i with
    | succ i => cases hmoved
    | zero =>
      obtain ⟨⟨p', w'⟩, hadvance, rfl⟩ := Option.map_eq_some_iff.mp hmoved
      obtain ⟨s, next, reply, rfl, hrun, rfl⟩ := advance_eq_some hadvance
      refine ⟨next reply, rfl, h.tasks, h.workers, (h.safely m.world.time).2 reply w' hrun, ?_⟩
      exact fun a w'' hnext => h.yields a w'' ⟨m.world.time, reply, w', Nat.le_refl _, hrun, hnext⟩
  | task n =>
    rw [turn, h.tasks] at hmoved
    have hidle : m.world.tasks.get? n = none := hworld.nobodyElse.2 ▸ rfl
    simp only [Keyed.get?_empty, beginTask, hidle] at hmoved
    cases hmoved
  | worker e i =>
    rw [turn, h.workers] at hmoved
    have hpool : m.world.pool e = .start 0 none := by
      rw [World.pool, World.executor, hworld.nobodyElse.1]
      rfl
    simp only [Keyed.get?_empty, begin, hpool] at hmoved
    cases hmoved
  | pass milliseconds =>
    cases hmoved
    exact ⟨p, h.callers, h.tasks, h.workers, h.safely.pass _,
      fun a w' hp => h.yields a w' (hp.of_pass (Nat.le_add_right ..))⟩

end Machine.RunsAlone

theorem Run.exists_runsAlone {β : Behaviour μ} {depth : Nat} {memory : μ} {body : Body μ α}
    {trace : Trace μ}
    {m : Machine μ α} (hβ : β.IsOwn) (hbody : body.IsOwn) (h : Run β depth memory body trace m) :
    ∃ p, m.RunsAlone (.start memory) (β.run depth .main body) p := by
  induction h with
  | start =>
    refine ⟨_, rfl, rfl, rfl, ?_, fun _ _ h => h⟩
    exact Proc.balanced_run hβ depth hbody _ _ (World.attends_start memory .main)
      (World.isEven_start memory)
  | turn _ moved ih =>
    obtain ⟨p, hp⟩ := ih
    exact hp.of_turn moved

/-- What a program can come to by itself, the machine can come to. -/
theorem Run.of_yields {β : Behaviour μ} {depth : Nat} {memory : μ} {body : Body μ α} {trace : Trace μ}
    {m : Machine μ α} {p : Proc μ α} {a : α} {w : World μ} (h : Run β depth memory body trace m)
    (hcallers : m.callers = [p]) (hyields : p.Yields m.world a w) :
    ∃ trace' m', Run β depth memory body trace' m' ∧ m'.callers = [.done a] ∧ m'.world = w := by
  induction p generalizing trace m with
  | never => exact hyields.elim
  | done a' =>
    obtain ⟨rfl, time, hle, rfl⟩ := hyields
    refine ⟨_, _, h.turn (t := .pass (time - m.world.time)) rfl, hcallers, ?_⟩
    dsimp only
    rw [Nat.add_sub_cancel' hle]
  | step s next ih =>
    obtain ⟨time, reply, w₁, hle, hrun, hnext⟩ := hyields
    have hpassed := h.turn (t := .pass (time - m.world.time)) rfl
    rw [Nat.add_sub_cancel' hle] at hpassed
    have hmoved : Machine.turn β depth { m with world := { m.world with time } } (.caller 0) =
        some { m with world := w₁, callers := [next reply] } := by
      rw [Machine.turn]
      simp only [hcallers, List.getElem?_cons_zero, Machine.advance, hrun]
      rfl
    exact ih reply (hpassed.turn hmoved) rfl hnext

/-- Runs in which one thread does everything, in posts nested to any depth: the thread gets every lock
that it asks for. Whenever it is not about to give back a lock, the lock of each handler is held as often
as invocations are in progress that need it, in particular when the observers are told of a failure. An
invocation leaves these numbers as it found them. When the run has ended nobody holds a lock, and what
was answered and what happened in it depends on the flags of handlers only by the flags of the
subscriptions that are shown. -/
theorem locks_are_reentrant_balanced_and_invisible {β : Behaviour μ} {depth : Nat} {memory : μ}
    {body : Body μ α} {trace : Trace μ} {m : Machine μ α} (hβ : β.IsOwn) (hbody : body.IsOwn)
    (h : Run β depth memory body trace m) :
    (∀ s next, m.callers[0]? = some (.step s next) →
      (∀ b lock t, s = .acquire b lock t → s.possible m.world = true) ∧
      ((∀ b lock, s ≠ .release b lock) → ∀ b handler, (m.world.bus b).locks.holds handler =
        m.world.inProgress b handler + if s.starts b handler then 1 else 0)) ∧
    (m.world.IsEven → ∀ nested d r w',
      (runHandler (β.client (β.perform nested .main)) .main d).Yields m.world r w' →
      ∀ b handler, (w'.bus b).locks.holds handler = (m.world.bus b).locks.holds handler) ∧
    ∀ a, m.callers[0]? = some (.done a) →
      (∀ b lock, ((m.world.bus b).locks.lock lock).holder = none) ∧
      ∀ β' body', β.Alike β' → body.Alike body' →
        (∃ trace' m', Run β' depth memory body' trace' m' ∧ m'.callers[0]? = some (.done a)) ∧
        ∀ trace' m' a', Run β' depth memory body' trace' m' → m'.callers[0]? = some (.done a') →
          a' = a ∧ m'.world.history.map Entry.bare = m.world.history.map Entry.bare := by
  obtain ⟨p, hp⟩ := h.exists_runsAlone hβ hbody
  rw [hp.callers, List.getElem?_cons_zero]
  refine ⟨?_, ?_, ?_⟩
  · rintro s next heq
    obtain rfl := Option.some.inj heq
    have hclear := (hp.safely m.world.time).1
    exact ⟨hclear.acquires, hclear.holds⟩
  · intro heven nested d r w' hyields
    obtain ⟨g, hworld⟩ := hp.safely.attends
    have hclient := Proc.isBalanced_client hβ (Proc.balanced_perform hβ nested (t := .main))
    have hsafely := Proc.balanced_runHandler hclient d m.world g hworld heven
    exact (hsafely.of_yields hyields).holds_eq hworld
  · rintro a heq
    obtain rfl := Option.some.inj heq
    have hrestores := hp.safely m.world.time
    have hfirst := hp.yields a m.world (Proc.yields_done a _)
    refine ⟨fun b lock => ?_, fun β' body' hβ' hbody' => ?_⟩
    · cases hholder : ((m.world.bus b).locks.lock lock).holder with
      | none => rfl
      | some t => exact absurd ((hrestores.attends.tracks b).busy lock t hholder).2 (Nat.lt_irrefl 0)
    obtain ⟨hexists, hsame⟩ := Proc.mirrors_run hβ' depth hbody' _ _ (World.twins_start memory .main)
      (Nat.zero_le _)
    have hagrees : ∀ {a' w'}, (β'.run depth .main body').Yields (.start memory) a' w' →
        a' = a ∧ w'.history.map Entry.bare = m.world.history.map Entry.bare := by
      intro a' w' hsecond
      obtain ⟨ha, htwins⟩ := hsame _ _ _ _ hfirst hsecond
      exact ⟨ha.symm, htwins.history.symm⟩
    have hβ'' : β'.IsOwn := ⟨fun code object => (hβ'.handle code object).isOwn,
      fun code failure => (hβ'.observe code failure).isOwn⟩
    constructor
    · obtain ⟨a', w', hsecond⟩ := hexists.mp ⟨a, _, hfirst⟩
      obtain ⟨rfl, -⟩ := hagrees hsecond
      obtain ⟨trace', m', hrun, hdone, -⟩ := Run.start.of_yields rfl hsecond
      exact ⟨trace', m', hrun, by rw [hdone, List.getElem?_cons_zero]⟩
    · intro trace' m' a' hrun hdone
      obtain ⟨p', hp'⟩ := hrun.exists_runsAlone hβ'' hbody'.isOwn
      rw [hp'.callers, List.getElem?_cons_zero] at hdone
      obtain rfl := Option.some.inj hdone
      exact hagrees (hp'.yields a' m'.world (Proc.yields_done a' _))

/-- The first caller asks for the first lock of the first bus, which one invocation of the crew holds. -/
private def asksAgain (m : Machine Nat Unit) : Bool :=
  match (m.callers[0]? : Option (Proc Nat Unit)) with
  | some (.step (.acquire 0 ⟨0⟩ .main) _) => (m.world.bus 0).locks.holds ⟨⟨"Crew", 0⟩, 0⟩ = 1
  | _ => false

/-- The first caller has come to its end, and so much has been written. -/
private def isDoneAfter (entries : Nat) (m : Machine Nat Unit) : Bool :=
  match (m.callers[0]? : Option (Proc Nat Unit)) with
  | some (.done ()) => m.world.history.length = entries
  | _ => false

/-- An exclusive handler posts back to itself. The inner invocation gets the lock that its thread holds,
withdraws the handler's owner and panics. In the end nobody holds a lock, and all goes the same way if
the handler is concurrent. -/
theorem locks_are_reentrant_balanced_and_invisible_on_panic :
    let tick : Event := ⟨⟨"Tick", "Tick", 0⟩, 0, ""⟩
    let crew (concurrent : Bool) : Subscriber := ⟨⟨"Crew", 0⟩, "crew",
      [⟨"echo", concurrent, .one .root, ⟨0⟩⟩, ⟨"rest", true, .one .root, ⟨1⟩⟩]⟩
    let β : Behaviour Nat := {
      handle code _ := match code.serial with
        | 0 => .step (.memory (· + 1)) fun n =>
          if n = 0 then .step (.post 0 tick) fun _ => .done .fine
          else .step (.unregister 0 (crew false).owner "crew") fun _ =>
            .done (.panicked (.literal "broken"))
        | _ => .done .fine
      observe _ _ := .done none
      work _ := .done none }
    let body (concurrent : Bool) : Body Nat Unit :=
      .step (.openBus ⟨"main", .collect, []⟩ .publisher) fun b =>
        .step (.register b (crew concurrent)) fun _ => .step (.post b tick) fun _ => .done ()
    (∃ trace m next, Run β 4 0 (body false) trace m ∧
      m.callers[0]? = some (.step (.acquire 0 ⟨0⟩ .main) next) ∧
      (m.world.bus 0).locks.holds ⟨⟨"Crew", 0⟩, 0⟩ = 1 ∧
      (Step.acquire (μ := Nat) 0 ⟨0⟩ .main).possible m.world = true) ∧
    ∃ trace m, Run β 4 0 (body false) trace m ∧ m.callers[0]? = some (.done ()) ∧
      m.world.history.length = 17 ∧
      (∀ b lock, ((m.world.bus b).locks.lock lock).holder = none) ∧
      ∃ trace' m', Run β 4 0 (body true) trace' m' ∧ m'.callers[0]? = some (.done ()) ∧
        m'.world.history.map Entry.bare = m.world.history.map Entry.bare := by
  intro tick crew β body
  have hβ : β.IsOwn := by
    refine ⟨fun code object => ?_, fun _ _ => trivial⟩
    dsimp only [β]
    split
    · refine ⟨rfl, fun n => ?_⟩
      change Body.IsOwn (if n = 0 then _ else _)
      split <;> exact ⟨rfl, fun _ => trivial⟩
    · trivial
  have hbody : (body false).IsOwn := ⟨rfl, fun _ => ⟨rfl, fun _ => ⟨rfl, fun _ => trivial⟩⟩⟩
  have hβ' : β.Alike β := by
    refine ⟨fun code object => ?_, fun _ _ => .done none⟩
    dsimp only [β]
    split
    · refine .step (.same rfl nofun) fun n n' heq => ?_
      subst heq
      change Body.Alike (if n = 0 then _ else _) (if n = 0 then _ else _)
      split <;> exact .step (.same rfl nofun) fun _ _ _ => .done _
    · exact .done _
  have hbody' : (body false).Alike (body true) := by
    refine .step (.same rfl nofun) fun b b' heq => ?_
    subst heq
    exact .step (.register b rfl) fun _ _ _ => .step (.same rfl nofun) fun _ _ _ => .done ()
  constructor
  · have hseen : ((Machine.start β 4 0 (body false)).play β 4 (List.replicate 26 (.caller 0))).any
        (fun run => asksAgain run.2) = true := by
      decide +kernel
    obtain ⟨trace, m, hrun, hasking⟩ := Run.exists_of_play hseen
    rw [asksAgain] at hasking
    split at hasking
    · rename_i next hnext
      have hclear := (locks_are_reentrant_balanced_and_invisible hβ hbody hrun).1 _ next hnext
      exact ⟨trace, m, next, hrun, hnext, of_decide_eq_true hasking, hclear.1 _ _ _ rfl⟩
    · cases hasking
  · have hseen : ((Machine.start β 4 0 (body false)).play β 4 (List.replicate 49 (.caller 0))).any
        (fun run => isDoneAfter 17 run.2) = true := by
      decide +kernel
    obtain ⟨trace, m, hrun, hdone⟩ := Run.exists_of_play hseen
    rw [isDoneAfter] at hdone
    split at hdone
    · rename_i hended
      obtain ⟨hfree, hagrees⟩ := (locks_are_reentrant_balanced_and_invisible hβ hbody hrun).2.2 () hended
      obtain ⟨⟨trace', m', hrun', hended'⟩, hsame⟩ := hagrees β (body true) hβ' hbody'
      exact ⟨trace, m, hrun, hended, of_decide_eq_true hdone, hfree, trace', m', hrun', hended',
        (hsame trace' m' () hrun' hended').2⟩
    · cases hdone

end PubSub
