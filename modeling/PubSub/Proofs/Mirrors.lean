import PubSub.Proofs.Flags

/-!
# Programs that mirror each other

What a program comes to by itself, and when two programs come to the same on worlds that differ by the
flags of subscriptions. The lock of an exclusive handler is where they take different steps: on one
thread these steps always succeed, and they leave nothing behind that anyone could see.
-/
namespace PubSub

open Program

variable {μ α γ δ ε : Type}

/-- The program, run by itself, comes to this answer and leaves this world. Time passes at will. -/
def Proc.Yields : Proc μ α → World μ → α → World μ → Prop
  | .done a, w, a', w' => a' = a ∧ ∃ time, w.time ≤ time ∧ w' = { w with time }
  | .never, _, _, _ => False
  | .step s next, w, a', w' => ∃ time reply w₁, w.time ≤ time ∧
      s.run { w with time } = some (reply, w₁) ∧ Yields (next reply) w₁ a' w'

namespace Proc

variable {t : Thread} {w w' : World μ}

theorem yields_done (a : α) (w : World μ) : Yields (.done a) w a w := ⟨rfl, w.time, Nat.le_refl _, rfl⟩

/-- A program can begin later. -/
theorem Yields.of_pass {p : Proc μ α} {time : Nat} {a : α} (hle : w.time ≤ time)
    (h : p.Yields { w with time } a w') : p.Yields w a w' := by
  cases p with
  | done a' =>
    obtain ⟨ha, time', htime, hw'⟩ := h
    exact ⟨ha, time', Nat.le_trans hle htime, hw'⟩
  | never => exact h
  | step s next =>
    obtain ⟨time', reply, w₁, htime, hrun, hnext⟩ := h
    exact ⟨time', reply, w₁, Nat.le_trans hle htime, hrun, hnext⟩

theorem yields_bind {p : Proc μ α} {f : α → Proc μ γ} {c : γ} :
    Proc.Yields (p.bind f) w c w' ↔ ∃ a w₁, p.Yields w a w₁ ∧ (f a).Yields w₁ c w' := by
  induction p generalizing w with
  | done a =>
    refine ⟨fun h => ⟨a, w, yields_done a w, h⟩, ?_⟩
    rintro ⟨_, _, ⟨rfl, time, hle, rfl⟩, h⟩
    exact h.of_pass hle
  | never => exact ⟨False.elim, fun ⟨_, _, h, _⟩ => h⟩
  | step s next ih =>
    constructor
    · rintro ⟨time, reply, w₁, hle, hrun, h⟩
      obtain ⟨a, w₂, hnext, hf⟩ := (ih reply).mp h
      exact ⟨a, w₂, ⟨time, reply, w₁, hle, hrun, hnext⟩, hf⟩
    · rintro ⟨a, w₂, ⟨time, reply, w₁, hle, hrun, hnext⟩, hf⟩
      exact ⟨time, reply, w₁, hle, hrun, (ih reply).mpr ⟨a, w₂, hnext, hf⟩⟩

theorem yields_ask {s : Step μ} {reply : s.Reply} : Proc.Yields (ask s) w reply w' ↔
    ∃ time w₁ time', w.time ≤ time ∧ s.run { w with time } = some (reply, w₁) ∧ w₁.time ≤ time' ∧
      w' = { w₁ with time := time' } := by
  constructor
  · rintro ⟨time, reply, w₁, hle, hrun, rfl, time', hle', rfl⟩
    exact ⟨time, w₁, time', hle, hrun, hle', rfl⟩
  · rintro ⟨time, w₁, time', hle, hrun, hle', rfl⟩
    exact ⟨time, reply, w₁, hle, hrun, rfl, time', hle', rfl⟩

theorem exists_yields_ask (s : Step μ) : (∃ reply w', Proc.Yields (ask s) w reply w') ↔
    ∃ time, w.time ≤ time ∧ (s.run { w with time }).isSome = true := by
  constructor
  · rintro ⟨reply, w', h⟩
    obtain ⟨time, w₁, -, hle, hrun, -⟩ := yields_ask.mp h
    exact ⟨time, hle, hrun ▸ rfl⟩
  · rintro ⟨time, hle, hsome⟩
    obtain ⟨⟨reply, w₁⟩, hrun⟩ := Option.isSome_iff_exists.mp hsome
    exact ⟨reply, w₁, yields_ask.mpr ⟨time, w₁, w₁.time, hle, hrun, Nat.le_refl _, rfl⟩⟩

/-- Buses stay open. -/
theorem Yields.length_le {p : Proc μ α} {a : α} (h : p.Yields w a w') :
    w.buses.length ≤ w'.buses.length := by
  induction p generalizing w with
  | done a' =>
    obtain ⟨-, time, -, rfl⟩ := h
    exact Nat.le_refl _
  | never => exact h.elim
  | step s next ih =>
    obtain ⟨time, reply, w₁, -, hrun, hnext⟩ := h
    exact Nat.le_trans (Step.run_effect hrun).buses.length_le (ih reply hnext)

/-- What is safe to run ends as it should. -/
theorem Safely.of_yields {p : Proc μ α} {Q : α → World μ → Prop} {a : α} (h : p.Safely t w Q)
    (hyields : p.Yields w a w') : Q a w' := by
  induction p generalizing w with
  | done a' =>
    obtain ⟨rfl, time, -, rfl⟩ := hyields
    exact h time
  | never => exact hyields.elim
  | step s next ih =>
    obtain ⟨time, reply, w₁, -, hrun, hnext⟩ := hyields
    exact ih reply ((h time).2 reply w₁ hrun) hnext

end Proc

theorem isSome_eq_of_rel {R : α → γ → Prop} {x : Option α} {y : Option γ} (h : Option.Rel R x y) :
    x.isSome = y.isSome := by
  cases h <;> rfl

/-- Run by themselves on worlds that differ by flags and have at least `n` open buses, either both
programs come to an answer or neither does, and their answers are in this relation whenever time passes.
They leave worlds that differ by flags. -/
def Proc.Mirrors (t : Thread) (n : Nat) (R : α → γ → Prop) (p : Proc μ α) (q : Proc μ γ) : Prop :=
  ∀ v w : World μ, v.Twins t w → n ≤ v.buses.length →
    ((∃ a v', p.Yields v a v') ↔ ∃ c w', q.Yields w c w') ∧
    ∀ a v' c w', p.Yields v a v' → q.Yields w c w' → R a c ∧ v'.Twins t w'

namespace Proc

variable {t : Thread} {n : Nat} {R : α → γ → Prop} {S : δ → ε → Prop} {p : Proc μ α} {q : Proc μ γ}

theorem mirrors_done {a : α} {c : γ} (h : R a c) : Mirrors (μ := μ) t n R (.done a) (.done c) := by
  intro v w htwins _
  refine ⟨⟨fun _ => ⟨c, w, yields_done c w⟩, fun _ => ⟨a, v, yields_done a v⟩⟩, ?_⟩
  rintro _ _ _ _ ⟨rfl, time, -, rfl⟩ ⟨rfl, time', -, rfl⟩
  exact ⟨h, htwins.pass time time'⟩

theorem mirrors_never : Mirrors (μ := μ) t n R .never .never := fun _ _ _ _ =>
  ⟨⟨fun ⟨_, _, h⟩ => h.elim, fun ⟨_, _, h⟩ => h.elim⟩, fun _ _ _ _ h => h.elim⟩

theorem Mirrors.symm (h : Mirrors t n R p q) : Mirrors t n (fun c a => R a c) q p := by
  intro w v htwins hn
  obtain ⟨hexists, hsame⟩ := h v w htwins.symm (htwins.length ▸ hn)
  refine ⟨hexists.symm, fun c w' a v' hq hp => ?_⟩
  obtain ⟨hR, htwins'⟩ := hsame a v' c w' hp hq
  exact ⟨hR, htwins'.symm⟩

theorem Mirrors.bind {f : α → Proc μ δ} {g : γ → Proc μ ε} (h : Mirrors t n R p q)
    (hfg : ∀ a c, R a c → Mirrors t n S (f a) (g c)) :
    Mirrors t n S (p.bind f) (q.bind g) := by
  intro v w htwins hn
  obtain ⟨hexists, hsame⟩ := h v w htwins hn
  have hrest : ∀ {a v' c w'}, p.Yields v a v' → q.Yields w c w' → _ := fun hp hq =>
    hfg _ _ (hsame _ _ _ _ hp hq).1 _ _ (hsame _ _ _ _ hp hq).2 (Nat.le_trans hn hp.length_le)
  constructor
  · constructor
    · rintro ⟨d, v'', hd⟩
      obtain ⟨a, v', hp, hf⟩ := yields_bind.mp hd
      obtain ⟨c, w', hq⟩ := hexists.mp ⟨a, v', hp⟩
      obtain ⟨e, w'', hg⟩ := (hrest hp hq).1.mp ⟨d, v'', hf⟩
      exact ⟨e, w'', yields_bind.mpr ⟨c, w', hq, hg⟩⟩
    · rintro ⟨e, w'', he⟩
      obtain ⟨c, w', hq, hg⟩ := yields_bind.mp he
      obtain ⟨a, v', hp⟩ := hexists.mpr ⟨c, w', hq⟩
      obtain ⟨d, v'', hf⟩ := (hrest hp hq).1.mpr ⟨e, w'', hg⟩
      exact ⟨d, v'', yields_bind.mpr ⟨a, v', hp, hf⟩⟩
  · intro d v'' e w'' hd he
    obtain ⟨a, v', hp, hf⟩ := yields_bind.mp hd
    obtain ⟨c, w', hq, hg⟩ := yields_bind.mp he
    exact (hrest hp hq).2 d v'' e w'' hf hg

/-- A first part of one of the programs that shows nothing. -/
theorem Mirrors.bind_left {f : α → Proc μ δ} {q : Proc μ ε}
    (h : Mirrors t n (fun _ _ => True) p (.done ())) (hf : ∀ a, Mirrors t n S (f a) q) :
    Mirrors t n S (p.bind f) q := Mirrors.bind (g := fun _ => q) h fun a _ _ => hf a

theorem mirrors_forEach {items : List α} {f g : α → Proc μ Unit}
    (h : ∀ item, Mirrors t n Eq (f item) (g item)) :
    Mirrors t n Eq (forEach items f) (forEach items g) := by
  induction items with
  | nil => exact mirrors_done rfl
  | cons item rest ih => exact (h item).bind fun _ _ _ => ih

/-- Two steps that have the same effect up to flags, at any time. -/
theorem mirrors_ask (s s' : Step μ) {R : s.Reply → s'.Reply → Prop}
    (h : ∀ v w : World μ, v.Twins t w → n ≤ v.buses.length →
      Option.Rel (fun x y => R x.1 y.1 ∧ x.2.Twins t y.2) (s.run v) (s'.run w)) :
    Mirrors t n R (ask s) (ask s') := by
  intro v w htwins hn
  have hrel := fun time time' => h _ _ (htwins.pass time time') hn
  have hpossible := fun time time' => isSome_eq_of_rel (hrel time time')
  refine ⟨?_, ?_⟩
  · rw [exists_yields_ask, exists_yields_ask]
    constructor
    · rintro ⟨time, -, hsome⟩
      exact ⟨w.time, Nat.le_refl _, hpossible time w.time ▸ hsome⟩
    · rintro ⟨time, -, hsome⟩
      exact ⟨v.time, Nat.le_refl _, hpossible v.time time ▸ hsome⟩
  · intro reply v' reply' w' hv hw
    obtain ⟨time, v₁, time₁, -, hrun, -, rfl⟩ := yields_ask.mp hv
    obtain ⟨time', w₁, time₁', -, hrun', -, rfl⟩ := yields_ask.mp hw
    have hrel := hrel time time'
    rw [hrun, hrun'] at hrel
    cases hrel with
    | some hrel => exact ⟨hrel.1, hrel.2.pass time₁ time₁'⟩

/-- A step of one of the programs that shows nothing. -/
theorem mirrors_ask_done (s : Step μ) (h : ∀ v w : World μ, v.Twins t w → n ≤ v.buses.length →
      ∃ reply v', s.run v = some (reply, v') ∧ v'.Twins t w) :
    Mirrors t n (fun _ _ => True) (ask s) (.done ()) := by
  intro v w htwins hn
  constructor
  · obtain ⟨reply, v', hrun, -⟩ := h v w htwins hn
    refine ⟨fun _ => ⟨(), w, yields_done () w⟩, fun _ => ?_⟩
    exact (exists_yields_ask s).mpr ⟨v.time, Nat.le_refl _, Option.isSome_iff_exists.mpr ⟨_, hrun⟩⟩
  · rintro reply v' _ _ hv ⟨-, time', -, rfl⟩
    obtain ⟨time, v₁, time₁, -, hrun, -, rfl⟩ := yields_ask.mp hv
    obtain ⟨reply', v₂, hrun', htwins'⟩ := h _ _ (htwins.pass time w.time) hn
    cases hrun.symm.trans hrun'
    exact ⟨trivial, htwins'.pass time₁ time'⟩

/-- The programs see twins of a bus, which is open from then on. -/
theorem mirrors_readBus {b : BusId} {f : Bus → Proc μ α} {g : Bus → Proc μ γ}
    (h : ∀ bus bus', bus.Twins t bus' → bus.discipline = .publisher →
      Mirrors t (max n (b + 1)) R (f bus) (g bus')) :
    Mirrors t n R ((readBus b).bind f) ((readBus b).bind g) := by
  intro v w htwins hn
  by_cases hb : b < v.buses.length
  · refine Mirrors.bind (R := fun bus bus' : Bus => bus.Twins t bus' ∧ bus.discipline = .publisher)
      (mirrors_ask (.readBus b) (.readBus b) fun v w htwins hn => ?_)
      (fun bus bus' hbus => h bus bus' hbus.1 hbus.2) v w htwins (Nat.max_le.mpr ⟨hn, hb⟩)
    have hv : b < v.buses.length := (Nat.max_le.mp hn).2
    have hw : b < w.buses.length := htwins.length ▸ hv
    rw [Step.run, Step.run, World.getElem?_buses hv, World.getElem?_buses hw]
    exact .some ⟨⟨htwins.buses b, htwins.publisher b⟩, htwins⟩
  · have hstuck : ∀ {ρ : Type} {u : World μ} {f : Bus → Proc μ ρ} {a u'},
        ¬ b < u.buses.length → ¬ Proc.Yields ((readBus b).bind f) u a u' := by
      rintro ρ u f a u' hu ⟨time, bus, u₁, -, hrun, -⟩
      obtain ⟨bus, hbus, -⟩ := Option.map_eq_some_iff.mp hrun
      exact hu (List.getElem?_eq_some_iff.mp hbus).1
    refine ⟨⟨?_, ?_⟩, fun a v' _ _ hv => absurd hv (hstuck hb)⟩
    · rintro ⟨a, v', hv⟩
      exact absurd hv (hstuck hb)
    · rintro ⟨c, w', hw⟩
      exact absurd hw (hstuck (htwins.length ▸ hb))

theorem mirrors_record {o o' : Occurrence} (ho : o.bare = o'.bare) :
    Mirrors (μ := μ) t n Eq (record t o) (record t o') :=
  mirrors_ask (.record t o) (.record t o') fun _ _ htwins _ => .some ⟨rfl, htwins.record ho⟩

theorem mirrors_log {level : Level} {target message : String} {fields : List (String × String)} :
    Mirrors (μ := μ) t n Eq (log t level target message fields) (log t level target message fields) :=
  mirrors_record rfl

theorem mirrors_serial : Mirrors (μ := μ) t n Eq serial serial := by
  refine mirrors_ask .serial .serial fun v w htwins _ => .some ⟨htwins.serial, ?_⟩
  exact { htwins with serial := congrArg (· + 1) htwins.serial }

theorem mirrors_computeTable (b : BusId) (type : EventType) :
    Mirrors (μ := μ) t n Eq (computeTable t b type) (computeTable t b type) := by
  refine mirrors_ask (.computeTable t b type) (.computeTable t b type) fun v w htwins _ => .some ⟨?_, ?_⟩
  · exact congrArg (·.table type) htwins.declarations
  · rw [htwins.declarations]
    exact htwins.recordAll _

theorem mirrors_keepTable (b : BusId) (type : EventType) (table : Table) :
    Mirrors (μ := μ) t n Eq (keepTable b type table) (keepTable b type table) := by
  refine mirrors_ask (.keepTable b type table) (.keepTable b type table) fun v w htwins _ => ?_
  by_cases hb : b < v.buses.length
  · rw [Step.run, Step.run, World.getElem?_buses hb, World.getElem?_buses (htwins.length ▸ hb)]
    have hbus := htwins.buses b
    have hpublisher := htwins.publisher b
    simp only [Option.map_some, Bus.keepTable, hbus.tables]
    cases (w.bus b).tables.get? type with
    | some kept => exact .some ⟨rfl, htwins.setBus hbus hpublisher⟩
    | none => exact .some ⟨rfl, htwins.setBus { hbus with tables := rfl } hpublisher⟩
  · rw [Step.run, Step.run, List.getElem?_eq_none (Nat.le_of_not_lt hb),
      List.getElem?_eq_none (htwins.length ▸ Nat.le_of_not_lt hb)]
    exact .none

theorem mirrors_enrol (b : BusId) (owner : SubscriberId) {added added' : List Subscription}
    (h : added.map Subscription.bare = added'.map Subscription.bare) :
    Mirrors (μ := μ) t n Eq (enrol b owner added) (enrol b owner added') := by
  refine mirrors_ask (.enrol b owner added) (.enrol b owner added') fun v w htwins _ => ?_
  have hbus := htwins.buses b
  have hroster : ((v.bus b).roster.enrol owner added).map Roster.bare =
      ((w.bus b).roster.enrol owner added').map Roster.bare := by
    rw [← Roster.enrol_bare, ← Roster.enrol_bare, h, hbus.roster]
  rw [Step.run, Step.run]
  cases hv : (v.bus b).roster.enrol owner added <;> cases hw : (w.bus b).roster.enrol owner added' <;>
    rw [hv, hw] at hroster <;> try cases hroster; done
  · exact .some ⟨rfl, htwins⟩
  · exact .some ⟨rfl, htwins.setBus { hbus with roster := Option.some.inj hroster } (htwins.publisher b)⟩

theorem mirrors_dismiss (b : BusId) (owner : SubscriberId) :
    Mirrors (μ := μ) t n (fun removed removed' =>
        removed.map (·.map Subscription.bare) = removed'.map (·.map Subscription.bare))
      (dismiss b owner) (dismiss b owner) := by
  refine mirrors_ask (.dismiss b owner) (.dismiss b owner) fun v w htwins _ => ?_
  have hbus := htwins.buses b
  have hroster := (Roster.dismiss_bare (v.bus b).roster owner).symm.trans
    ((congrArg (·.dismiss owner) hbus.roster).trans (Roster.dismiss_bare (w.bus b).roster owner))
  rw [Step.run, Step.run]
  cases hv : (v.bus b).roster.dismiss owner <;> cases hw : (w.bus b).roster.dismiss owner <;>
    rw [hv, hw] at hroster <;> try cases hroster; done
  · exact .some ⟨rfl, htwins⟩
  · obtain ⟨hremoved, hleft⟩ := Prod.mk.inj (Option.some.inj hroster)
    exact .some ⟨congrArg some hremoved, htwins.setBus { hbus with roster := hleft } (htwins.publisher b)⟩

theorem mirrors_prune (b : BusId) : Mirrors (μ := μ) t n Eq (prune b) (prune b) := by
  refine mirrors_ask (.prune b) (.prune b) fun v w htwins _ => .some ⟨rfl, ?_⟩
  have hbus := htwins.buses b
  exact ((htwins.setLocks b (hbus.sole.prune _)).symm.setLocks b (hbus.sole'.prune _)).symm

theorem mirrors_declare (type : EventType) (steps : List (Widening type)) :
    Mirrors (μ := μ) t n Eq (declare type steps) (declare type steps) := by
  refine mirrors_ask (.declare type steps) (.declare type steps) fun v w htwins _ => .some ⟨rfl, ?_⟩
  exact { htwins with declarations := congrArg (·.set type steps) htwins.declarations }

theorem mirrors_memory (change : μ → μ) : Mirrors t n Eq (memory change) (memory change) := by
  refine mirrors_ask (.memory change) (.memory change) fun v w htwins _ => .some ⟨htwins.memory, ?_⟩
  exact { htwins with memory := congrArg change htwins.memory }

theorem mirrors_time : Mirrors (μ := μ) t n (fun _ _ => True) time time :=
  mirrors_ask .time .time fun _ _ htwins _ => .some ⟨trivial, htwins⟩

/-- Whoever waits goes on when the time has come. -/
theorem mirrors_await (condition : μ → Bool) (deadline deadline' : Nat) :
    Mirrors t n Eq (await condition deadline) (await condition deadline') := by
  have hends : ∀ (w : World μ) deadline, ∃ reply w',
    Proc.Yields (await condition deadline) w reply w' := by
    intro w deadline
    refine (exists_yields_ask (.await condition deadline)).mpr
      ⟨max w.time deadline, Nat.le_max_left .., ?_⟩
    rw [Step.run, if_pos (Bool.or_eq_true_iff.mpr (.inr (decide_eq_true (Nat.le_max_right ..))))]
    rfl
  have hleaves : ∀ {w : World μ} {deadline reply w'}, Proc.Yields (await condition deadline) w reply w' →
      ∃ time, w' = { w with time } := by
    intro w deadline reply w' h
    obtain ⟨time, w₁, time', -, hrun, -, rfl⟩ := yields_ask.mp h
    obtain ⟨-, heq⟩ := Option.ite_none_right_eq_some.mp hrun
    cases heq
    exact ⟨time', rfl⟩
  intro v w htwins _
  refine ⟨⟨fun _ => hends w deadline', fun _ => hends v deadline⟩, fun _ _ _ _ hv hw => ⟨rfl, ?_⟩⟩
  obtain ⟨time, rfl⟩ := hleaves hv
  obtain ⟨time', rfl⟩ := hleaves hw
  exact htwins.pass time time'

theorem mirrors_openBus (settings : BusSettings) :
    Mirrors (μ := μ) t n Eq (openBus settings .publisher) (openBus settings .publisher) :=
  mirrors_ask (.openBus settings .publisher) (.openBus settings .publisher) fun _ _ htwins _ =>
    .some ⟨htwins.length, htwins.openBus settings⟩

/-- A step with a lock always succeeds on one thread, and shows nothing. -/
theorem mirrors_setLocks (s : Step μ) {b : BusId} (hb : b < n)
    (h : ∀ w : World μ, b < w.buses.length → (w.bus b).locks.IsSole t →
      ∃ reply locks, s.run w = some (reply, w.setLocks b locks) ∧ locks.IsSole t) :
    Mirrors t n (fun _ _ => True) (ask s) (.done ()) := by
  refine mirrors_ask_done s fun v w htwins hn => ?_
  obtain ⟨reply, locks, hrun, hsole⟩ := h v (Nat.lt_of_lt_of_le hb hn) (htwins.buses b).sole
  exact ⟨reply, _, hrun, htwins.setLocks b hsole⟩

theorem mirrors_share {b : BusId} (hb : b < n) (handler : HandlerKey) :
    Mirrors (μ := μ) t n (fun _ _ => True) (share b handler) (.done ()) := by
  refine mirrors_setLocks (.share b handler) hb fun w hopen hsole => ?_
  refine ⟨((w.bus b).locks.share handler).1, _, ?_, hsole.share handler⟩
  rw [Step.run, World.getElem?_buses hopen]
  rfl

theorem mirrors_acquire {b : BusId} (hb : b < n) (lock : LockId) :
    Mirrors (μ := μ) t n (fun _ _ => True) (acquire b lock t) (.done ()) := by
  refine mirrors_setLocks (.acquire b lock t) hb fun w _ hsole => ?_
  obtain ⟨locks, hacquire, hsole'⟩ := hsole.exists_acquire lock
  exact ⟨(), locks, by rw [Step.run, hacquire]; rfl, hsole'⟩

theorem mirrors_look {b : BusId} (hb : b < n) :
    Mirrors (μ := μ) t n (fun _ _ => True) (readBus b) (.done ()) := by
  refine mirrors_ask_done (.readBus b) fun v w htwins hn => ⟨v.bus b, v, ?_, htwins⟩
  rw [Step.run, World.getElem?_buses (Nat.lt_of_lt_of_le hb hn)]
  rfl

/-- Nobody can see whether a body runs under the lock of its handler. -/
theorem Mirrors.exclusively_left {b : BusId} (hb : b < n) (s : Subscription) (h : Mirrors t n R p q) :
    Mirrors t n R (exclusively t b s p) q := by
  rw [exclusively]
  split
  · exact h
  refine (mirrors_share hb s.id).bind_left fun lock => (mirrors_acquire hb lock).bind_left fun _ => ?_
  rw [← q.bind_done]
  refine h.bind fun a c hac => ?_
  refine Mirrors.bind_left (mirrors_setLocks (.release b lock) hb fun _ _ hsole =>
    ⟨(), _, rfl, hsole.release lock⟩) fun _ => ?_
  refine Mirrors.bind_left (mirrors_setLocks (.unshare b lock) hb fun _ _ hsole =>
    ⟨(), _, rfl, hsole.unshare lock⟩) fun _ => ?_
  refine (mirrors_look hb).bind_left fun bus => ?_
  split
  · exact mirrors_done hac
  · exact Mirrors.bind_left (mirrors_setLocks (.discard b s.id) hb fun _ _ hsole =>
      ⟨(), _, rfl, hsole.discard s.id⟩) fun _ => mirrors_done hac

theorem Mirrors.exclusively {b : BusId} (hb : b < n) (s s' : Subscription) (h : Mirrors t n R p q) :
    Mirrors t n R (PubSub.exclusively t b s p) (PubSub.exclusively t b s' q) :=
  (h.exclusively_left hb s).symm.exclusively_left hb s' |>.symm

theorem mirrors_tableOf (b : BusId) (type : EventType) :
    Mirrors (μ := μ) t n Eq (tableOf t b type) (tableOf t b type) := by
  refine mirrors_readBus fun bus bus' hbus _ => ?_
  rw [hbus.tables]
  cases bus'.tables.get? type with
  | some table => exact mirrors_done rfl
  | none =>
    refine (mirrors_computeTable b type).bind fun table _ heq => ?_
    exact heq ▸ mirrors_keepTable b type table

theorem mirrors_selection (b : BusId) (type : EventType) :
    Mirrors (μ := μ) t n (fun found found' => found.map Selection.bare = found'.map Selection.bare)
      (selection t b type) (selection t b type) := by
  refine (mirrors_tableOf b type).bind fun table _ heq => heq ▸ mirrors_readBus fun bus bus' hbus _ => ?_
  refine mirrors_done ?_
  rw [← Roster.select_bare, ← Roster.select_bare, hbus.roster]

theorem mirrors_findHandlers (b : BusId) (type : EventType) :
    Mirrors (μ := μ) t n (fun found found' => found.map Selection.bare = found'.map Selection.bare)
      (findHandlers t b type) (findHandlers t b type) := by
  refine (mirrors_selection b type).bind fun found found' hfound => ?_
  have hlength : found.length = found'.length := by
    simpa only [List.length_map] using congrArg List.length hfound
  have hempty : found.isEmpty = found'.isEmpty := by
    rw [← List.isEmpty_map (f := Selection.bare), hfound, List.isEmpty_map]
  refine mirrors_readBus fun bus bus' hbus _ => ?_
  rw [hbus.settings, hlength, hempty]
  split <;> exact mirrors_log.bind fun _ _ _ => mirrors_done hfound

end Proc

/-- Two clients whose code comes to the same. -/
structure Client.Mirrors (t : Thread) (client client' : Client μ) : Prop where
  handle : ∀ code object n, Proc.Mirrors t n Eq (client.handle code object) (client'.handle code object)
  observe : ∀ code failure n,
    Proc.Mirrors t n Eq (client.observe code failure) (client'.observe code failure)

namespace Proc

variable {t : Thread} {n : Nat} {client client' : Client μ}

theorem mirrors_runHandler (h : client.Mirrors t client') {d d' : Delivery} (hd : d.bare = d'.bare)
    (hopen : d.invocation.bus < n) :
    Mirrors t n Eq (runHandler client t d) (runHandler client' t d') := by
  obtain ⟨concurrent, rfl⟩ := Delivery.exists_of_bare hd
  refine Mirrors.exclusively hopen _ _ ?_
  dsimp only
  split
  · exact mirrors_done rfl
  · refine Mirrors.bind (mirrors_record (by rfl)) fun _ _ _ => ?_
    refine (h.handle _ _ n).bind fun r r' hr => ?_
    subst hr
    exact Mirrors.bind (mirrors_record (by rfl)) fun _ _ _ => mirrors_done rfl

theorem mirrors_tellAll (h : client.Mirrors t client') {i i' : Invocation} (hi : i.bare = i'.bare)
    (cause : Cause) : Mirrors t n Eq (tellAll client t i cause) (tellAll client' t i' cause) := by
  obtain ⟨concurrent, rfl⟩ := Invocation.exists_of_bare hi
  refine mirrors_readBus fun bus bus' hbus _ => ?_
  have hobservers : bus.observers = bus'.observers := by
    rw [Bus.observers, hbus.settings, Bus.observers]
  rw [hobservers, hbus.settings]
  refine Mirrors.bind (mirrors_forEach fun entry => ?_) fun _ _ _ => mirrors_done rfl
  obtain ⟨observer, place⟩ := entry
  refine Mirrors.bind (mirrors_record (by rfl)) fun _ _ _ => ?_
  cases observer with
  | log => exact mirrors_done rfl
  | custom label name body =>
    refine (h.observe body _ _).bind fun payload _ heq => ?_
    subst heq
    cases payload with
    | none => exact mirrors_done rfl
    | some payload => exact mirrors_log

theorem mirrors_deliverAll (h : client.Mirrors t client') (policy : ErrorPolicy)
    (failures : List Failure) {ds ds' : List Delivery}
    (hds : ds.map Delivery.bare = ds'.map Delivery.bare)
    (hopen : ∀ d ∈ ds, d.invocation.bus < n) : Mirrors t n Eq (deliverAll client t policy failures ds)
      (deliverAll client' t policy failures ds') := by
  induction ds generalizing ds' failures with
  | nil =>
    obtain rfl := List.map_eq_nil_iff.mp hds.symm
    exact mirrors_done rfl
  | cons d ds ih =>
    obtain ⟨d', ds', rfl, hd, hds⟩ := List.map_eq_cons_iff.mp hds.symm
    have hi : d.invocation.bare = d'.invocation.bare := congrArg Delivery.invocation hd.symm
    have ih := fun failures => ih failures hds.symm fun d hd => hopen d (List.mem_cons_of_mem _ hd)
    refine (mirrors_runHandler h hd.symm (hopen d List.mem_cons_self)).bind fun r r' hr => ?_
    subst hr
    cases r with
    | fine => exact ih failures
    | panicked payload => exact (mirrors_tellAll h hi _).bind fun _ _ _ => mirrors_done rfl
    | failed error =>
      refine (mirrors_tellAll h hi _).bind fun failure failure' hfailure => ?_
      subst hfailure
      cases policy with
      | propagate => exact mirrors_done rfl
      | collect => exact ih _

theorem mirrors_post (h : client.Mirrors t client') (b : BusId) (event : Event) :
    Mirrors t n Eq (post client t b event) (post client' t b event) := by
  refine mirrors_serial.bind fun id id' hid => ?_
  subst hid
  refine (mirrors_findHandlers b event.type).bind fun found found' hfound => ?_
  have hselected : (deliveries id b event found).map Delivery.bare =
      (deliveries id b event found').map Delivery.bare := by
    rw [bare_deliveries, bare_deliveries, hfound]
  refine Mirrors.bind (mirrors_record ?_) fun _ _ _ => mirrors_readBus fun bus bus' hbus hpublisher => ?_
  · have hinvocations := congrArg (List.map Delivery.invocation) hselected
    rw [List.map_map, List.map_map] at hinvocations
    simp only [Occurrence.bare, List.map_map]
    exact congrArg _ hinvocations
  rw [← hbus.discipline, hpublisher, hbus.settings]
  refine (mirrors_deliverAll h _ [] hselected fun d hd => ?_).bind fun outcome outcome' houtcome => ?_
  · obtain ⟨x, -, rfl⟩ := List.mem_map.mp hd
    exact Nat.lt_of_succ_le (Nat.le_max_right ..)
  · subst houtcome
    exact Mirrors.bind (mirrors_record rfl) fun _ _ _ => mirrors_done rfl

theorem mirrors_register (b : BusId) {s s' : Subscriber} (hs : s.bare = s'.bare) :
    Mirrors (μ := μ) t n Eq (register t b s) (register t b s') := by
  obtain ⟨howner, hname, hhandlers⟩ := Subscriber.mk.inj hs
  have hhandlers : s.handlers.map Handler.name = s'.handlers.map Handler.name := by
    have hnames := congrArg (List.map Handler.name) hhandlers
    rwa [List.map_map, List.map_map] at hnames
  have hsubscribe := s.subscribe_bare.symm.trans ((congrArg _ hs).trans s'.subscribe_bare)
  unfold register
  rw [howner, hname, hhandlers]
  refine (mirrors_record rfl).bind fun _ _ _ => mirrors_readBus fun bus bus' hbus _ => ?_
  rw [hbus.settings]
  cases hv : s.subscribe <;> cases hw : s'.subscribe <;> rw [hv, hw] at hsubscribe <;>
    try cases hsubscribe; done
  · obtain rfl := Except.error.inj hsubscribe
    exact mirrors_log.bind fun _ _ _ => mirrors_done rfl
  · have hadded := Except.ok.inj hsubscribe
    have hlength := by simpa only [List.length_map] using congrArg List.length hadded
    dsimp only
    rw [hlength]
    refine (mirrors_enrol b s'.owner hadded).bind fun isNew isNew' heq => ?_
    subst heq
    cases isNew <;> exact mirrors_log.bind fun _ _ _ => mirrors_done rfl

theorem mirrors_unregister (b : BusId) (owner : SubscriberId) (name : String) :
    Mirrors (μ := μ) t n Eq (unregister t b owner name) (unregister t b owner name) := by
  refine (mirrors_dismiss b owner).bind fun removed removed' hremoved => ?_
  cases removed <;> cases removed' <;> try cases hremoved; done
  · exact mirrors_done rfl
  · have hlength := congrArg List.length (Option.some.inj hremoved)
    rw [List.length_map, List.length_map] at hlength
    refine (mirrors_prune b).bind fun _ _ _ => mirrors_readBus fun bus bus' hbus _ => ?_
    rw [hbus.settings, hlength]
    exact mirrors_log.bind fun _ _ _ => mirrors_done rfl

end Proc

/-- The calls differ by the flags of handlers, and their replies are in this relation. -/
inductive Call.Alike : (c c' : Call μ) → (c.Reply → c'.Reply → Prop) → Prop
  | readBus (b : BusId) :
    Alike (.readBus b) (.readBus b) fun view view' => view.bare = view'.bare
  | register (b : BusId) {s s' : Subscriber} (same : s.bare = s'.bare) :
    Alike (.register b s) (.register b s') Eq
  | note (operation : String) {answer answer' : Answer} (same : answer.bare = answer'.bare) :
    Alike (.note operation answer) (.note operation answer') Eq
  | same {c : Call μ} (own : c.isOwn = true) (blind : ∀ b, c ≠ .readBus b) : Alike c c Eq

/-- The bodies differ by the flags of the handlers that they register. They make no other difference,
whatever the flags of the subscriptions that they see. -/
inductive Body.Alike : Body μ α → Body μ α → Prop
  | done (a : α) : Alike (.done a) (.done a)
  | never : Alike .never .never
  | step {c c' : Call μ} {R : c.Reply → c'.Reply → Prop} {next : c.Reply → Body μ α}
      {next' : c'.Reply → Body μ α} (call : c.Alike c' R)
      (rest : ∀ reply reply', R reply reply' → Alike (next reply) (next' reply')) :
      Alike (.step c next) (.step c' next')

theorem Body.Alike.isOwn {body body' : Body μ α} (h : body.Alike body') : body'.IsOwn := by
  induction h with
  | done a => trivial
  | never => trivial
  | step call rest ih =>
    cases call with
    | readBus b => exact ⟨rfl, fun view => ih view view rfl⟩
    | register b same => exact ⟨rfl, fun reply => ih reply reply rfl⟩
    | note operation same => exact ⟨rfl, fun reply => ih reply reply rfl⟩
    | same own blind => exact ⟨own, fun reply => ih reply reply rfl⟩

/-- The code of the handlers and the observers. -/
structure Behaviour.Alike (β β' : Behaviour μ) : Prop where
  handle : ∀ code object, Body.Alike (β.handle code object) (β'.handle code object)
  observe : ∀ code failure, Body.Alike (β.observe code failure) (β'.observe code failure)

namespace Proc

variable {t : Thread} {n : Nat} {β β' : Behaviour μ}

theorem mirrors_expand {meaning meaning' : (c : Call μ) → Proc μ c.Reply}
    (hmeaning : ∀ {c c' : Call μ} {R}, c.Alike c' R → ∀ n, Mirrors t n R (meaning c) (meaning' c'))
    {body body' : Body μ α} (h : body.Alike body') :
    Mirrors t n Eq (body.expand meaning) (body'.expand meaning') := by
  induction h with
  | done a => exact mirrors_done rfl
  | never => exact mirrors_never
  | step call rest ih => exact (hmeaning call n).bind ih

theorem mirrors_perform (h : β.Alike β') (depth : Nat) {c c' : Call μ} {R : c.Reply → c'.Reply → Prop}
    (hc : c.Alike c' R) (n : Nat) : Mirrors t n R (β.perform depth t c) (β'.perform depth t c') := by
  induction depth generalizing c c' n with
  | zero => exact mirrors_never
  | succ depth ih =>
    have hclient : (β.client (β.perform depth t)).Mirrors t (β'.client (β'.perform depth t)) :=
      ⟨fun code object _ => mirrors_expand ih (h.handle code object),
        fun code failure _ => mirrors_expand ih (h.observe code failure)⟩
    cases hc with
    | readBus b =>
      refine mirrors_readBus fun bus bus' hbus _ => mirrors_done ?_
      simp only [BusView.bare, Bus.view, hbus.settings, hbus.discipline, hbus.roster]
    | register b hs => exact mirrors_register b hs
    | note operation hanswer => exact mirrors_record (congrArg (Occurrence.nested operation) hanswer)
    | same hown hblind =>
      cases c with
      | readBus b => exact absurd rfl (hblind b)
      | post b event => exact mirrors_post hclient b event
      | register b s => exact mirrors_register b rfl
      | unregister b owner name => exact mirrors_unregister b owner name
      | reaches b type =>
        refine (mirrors_selection b type).bind fun found found' hfound => mirrors_done ?_
        rw [← List.isEmpty_map (f := Selection.bare), hfound, List.isEmpty_map]
      | assignable b type =>
        exact (mirrors_tableOf b type).bind fun _ _ heq => mirrors_done (congrArg Table.topics heq)
      | declare type steps => exact mirrors_declare type steps
      | openBus settings discipline =>
        obtain rfl : discipline = .publisher := of_decide_eq_true hown
        exact mirrors_openBus settings
      | note operation answer => exact mirrors_record rfl
      | memory change => exact mirrors_memory change
      | await condition patience => exact mirrors_time.bind fun _ _ _ => mirrors_await condition _ _
      | _ => cases hown

theorem mirrors_run (h : β.Alike β') (depth : Nat) {body body' : Body μ α} (hbody : body.Alike body') :
    Mirrors t n Eq (β.run depth t body) (β'.run depth t body') :=
  mirrors_expand (mirrors_perform h depth) hbody

end Proc

end PubSub
