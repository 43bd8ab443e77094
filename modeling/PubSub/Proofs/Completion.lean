import PubSub.Proofs.Submissions
import PubSub.Proofs.Unhindered

/-!
# Posts that nothing holds up

A post on a bus whose executor stores jobs or refuses them waits for nobody, unless the observers of
the bus do. So at each of its moments, wherever other threads stand, the thread that posts can go on by
itself until the post has answered.
-/
namespace PubSub

open Program

variable {μ α γ δ : Type} {first w w' : World μ} {e : ExecutorId} {b : BusId}

/-- A later world, in which the executor stores jobs or refuses them. -/
structure World.Precedes (first : World μ) (e : ExecutorId) (w : World μ) : Prop where
  buses : w.BusesExtend first
  isOpen : e < w.executors.length
  kind : (w.executor e).view.kind = .manual

/-- Whatever has happened in between, each step of the program is possible when it comes, and in the end
the program answers like this. -/
def Proc.NeverWaits (first : World μ) (e : ExecutorId) : Proc μ γ → (γ → Prop) → Prop
  | .done a, Q => Q a
  | .never, _ => False
  | .step s next, Q => ∀ w, first.Precedes e w → s.possible w = true ∧
      ∀ reply w', s.run w = some (reply, w') → NeverWaits first e (next reply) Q

theorem Proc.neverWaits_iff {p : Proc μ γ} {Q : γ → Prop} :
    NeverWaits first e p Q ↔ Unhindered (first.Precedes e) p Q := by
  induction p with
  | done a => rfl
  | never => rfl
  | step s next ih =>
    exact forall₂_congr fun w _ => and_congr_right fun _ => forall₃_congr fun reply w' _ => ih reply

namespace Proc

variable {p : Proc μ γ} {f : γ → Proc μ δ} {Q : γ → Prop} {R : δ → Prop}

theorem NeverWaits.bind (h : NeverWaits first e p Q) (hf : ∀ a, Q a → NeverWaits first e (f a) R) :
    NeverWaits first e (p.bind f) R :=
  neverWaits_iff.mpr ((neverWaits_iff.mp h).bind fun a ha => neverWaits_iff.mp (hf a ha))

/-- A step that is always possible. -/
theorem neverWaits_free {s : Step μ} (h : ∀ w, s.possible w = true) :
    NeverWaits first e (ask s) fun _ => True := neverWaits_iff.mpr (unhindered_free h)

theorem neverWaits_record (t : Thread) (o : Occurrence) :
    NeverWaits first e (record t o) fun _ => True := neverWaits_free fun _ => rfl

theorem neverWaits_readBus (hb : b < first.buses.length) : NeverWaits first e (readBus b) fun bus =>
    bus.settings = (first.bus b).settings ∧ bus.discipline = (first.bus b).discipline :=
  neverWaits_iff.mpr (unhindered_readBus (fun _ hw => hw.buses) hb)

theorem neverWaits_readExecutor :
    NeverWaits first e (readExecutor e) fun x => x.view.kind = .manual := by
  refine neverWaits_iff.mpr (unhindered_ask (fun _ _ => rfl) ?_)
  intro w x w' hw hrun
  cases hrun
  exact hw.kind

end Proc

/-- The code of the observers of a bus never waits, whatever it is told. -/
def World.Observed (first : World μ) (b : BusId) (e : ExecutorId) (client : Client μ) : Prop :=
  ∀ label name body, .custom label name body ∈ (first.bus b).settings.observers →
    ∀ failure, Proc.NeverWaits first e (client.observe body failure) fun _ => True

open Proc

theorem neverWaits_tableOf (hb : b < first.buses.length) (name : Thread) (type : EventType) :
    NeverWaits first e (tableOf name b type) fun _ => True := by
  refine (neverWaits_readBus hb).bind fun bus _ => ?_
  cases hkept : bus.tables.get? type with
  | some table => trivial
  | none =>
    refine NeverWaits.bind (neverWaits_free fun _ => rfl) fun table _ => ?_
    refine neverWaits_iff.mpr (unhindered_ask ?_ fun _ _ _ _ _ => trivial)
    intro w hw
    obtain ⟨bus', hbus, -⟩ := hw.buses b _ (World.getElem?_buses hb)
    simp [Step.possible, hbus]

theorem neverWaits_findHandlers (hb : b < first.buses.length) (name : Thread) (type : EventType) :
    NeverWaits first e (findHandlers name b type) fun _ => True := by
  have hselection : NeverWaits first e (selection name b type) fun _ => True :=
    (neverWaits_tableOf hb name type).bind fun _ _ => (neverWaits_readBus hb).bind fun _ _ => trivial
  refine hselection.bind fun found _ => (neverWaits_readBus hb).bind fun bus _ => ?_
  by_cases hempty : found.isEmpty = true
  · rw [if_pos hempty]
    exact (neverWaits_record name _).bind fun _ _ => trivial
  · rw [if_neg hempty]
    exact (neverWaits_record name _).bind fun _ _ => trivial

section Post

variable {client : Client μ} (hobserved : first.Observed b e client) (hb : b < first.buses.length)
  (name : Thread)

include hobserved hb

theorem neverWaits_tellAll {i : Invocation} (hi : i.bus = b) (cause : Cause) :
    NeverWaits first e (tellAll client name i cause) fun _ => True := by
  subst hi
  refine neverWaits_iff.mpr (unhindered_tellAll (fun _ hw => hw.buses) hb ?_ name cause)
  exact fun label title body htold failure => neverWaits_iff.mp (hobserved label title body htold failure)

theorem neverWaits_submit {d : Delivery} (hd : d.invocation.bus = b) (label : String) :
    NeverWaits first e (submit client name e (.delivery d label)) fun _ => True := by
  refine neverWaits_readExecutor.bind fun x hx => ?_
  cases x with
  | manual m =>
    refine NeverWaits.bind (neverWaits_free fun _ => rfl) fun accepted _ => ?_
    cases accepted with
    | true => trivial
    | false =>
      have hdrop : NeverWaits first e (dropJob client name (.delivery d label)) fun _ => True :=
        (neverWaits_record name _).bind fun _ _ =>
          (neverWaits_tellAll hobserved hb name hd _).bind fun _ _ => neverWaits_record name _
      exact hdrop.bind fun _ _ => trivial
  | pool => cases hx
  | runtime => cases hx

theorem neverWaits_submitAll (ds : List Delivery) (hds : ∀ d ∈ ds, d.invocation.bus = b) :
    NeverWaits first e (submitAll client name e ds) fun _ => True := by
  induction ds with
  | nil => trivial
  | cons d ds ih =>
    obtain ⟨hd, hds⟩ := List.forall_mem_cons.mp hds
    refine neverWaits_readExecutor.bind fun x _ => (neverWaits_record name _).bind fun _ _ => ?_
    refine (neverWaits_submit hobserved hb name hd _).bind fun answer _ => ?_
    cases answer with
    | ok _ => exact ih hds
    | error error =>
      refine (neverWaits_readBus (hd ▸ hb)).bind fun bus _ => ?_
      exact (neverWaits_record name _).bind fun _ _ => trivial

/-- A post on a bus with such an executor never waits. -/
theorem neverWaits_post (hdiscipline : (first.bus b).discipline = .executor e) (event : Event) :
    NeverWaits first e (post client name b event) fun _ => True := by
  rw [post_eq]
  have hselecting : NeverWaits first e (selecting name b event) fun found =>
      found.2.2.discipline = .executor e ∧ ∀ d ∈ found.2.1, d.invocation.bus = b := by
    refine NeverWaits.bind (neverWaits_free fun _ => rfl) fun id _ => ?_
    refine (neverWaits_findHandlers hb name event.type).bind fun found _ => ?_
    refine (neverWaits_record name _).bind fun _ _ => (neverWaits_readBus hb).bind fun bus hbus => ?_
    exact ⟨hbus.2.trans hdiscipline,
      fun d hd => (Activities.bus_deliveries _ (List.mem_map_of_mem hd)).2.1⟩
  refine hselecting.bind ?_
  rintro ⟨id, ds, bus⟩ ⟨(hbus : bus.discipline = .executor e), hds⟩
  simp only [delivering, hbus]
  refine (neverWaits_submitAll hobserved hb name ds hds).bind fun outcome _ => ?_
  exact (neverWaits_record name _).bind fun _ _ => trivial

end Post

namespace Machine

variable {β : Behaviour μ} {depth : Nat} {m m' : Machine μ α} {t : Turn} {p : Proc μ γ}
  {next : γ → Proc μ Unit} {later : Trace μ}

/-- An executor that stores jobs or refuses them stays one. -/
theorem Course.precedes (hcourse : m.Course β depth later m') (hopen : e < m.world.executors.length)
    (hkind : (m.world.executor e).view.kind = .manual) : m.world.Precedes e m'.world := by
  obtain ⟨hopen', htraits⟩ := hcourse.traits hopen
  exact ⟨hcourse.busesExtend, hopen', (congrArg Prod.fst htraits).trans hkind⟩

/-- Whatever other threads have done since a thread began with a program that never waits, it can come to
the end of it by itself. -/
theorem Course.exists_end (hcourse : m.Course β depth later m') (hopen : e < m.world.executors.length)
    (hkind : (m.world.executor e).view.kind = .manual) (hprogram : m.program? t = some (p.bind next))
    (hfree : NeverWaits m.world e p fun _ => True) :
    ∃ more m'' deeds a, m'.Course β depth more m'' ∧ (∀ entry ∈ more, entry.1 = t) ∧
      deeds <+: (more ++ later).deedsOf t ∧ Proc.Ends p deeds a :=
  hcourse.exists_end_of_unhindered (fun _ _ hlater => hlater.precedes hopen hkind) hprogram
    (neverWaits_iff.mp hfree)

end Machine

end PubSub
