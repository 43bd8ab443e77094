import PubSub.Proofs.Progress
import PubSub.Proofs.Reports

/-!
# Error chains of nested posts

A handler may return the error of a post that it made as its own error. So errors travel outwards from
post to post, and each post wraps the error as its policy says. This module says what the outermost
error tells about the innermost one.
-/
namespace PubSub

variable {μ α : Type}

/-- A handler that failed, with the error that it returned and the error that its post answered. -/
structure Setback where
  invocation : Invocation
  returned : HandlerError
  answered : BusError

namespace Setback

variable (w : World μ) (l : Setback)

def policy : ErrorPolicy := (w.bus l.invocation.bus).settings.policy

def failure : Failure := w.failure l.invocation (.error l.returned)

/-- The post stopped there. Its error speaks through the failure, so it names the handler's error
twice. -/
structure Propagated : Prop where
  answered : l.answered = .handlerFailed (l.failure w)
  message : l.answered.message = "handler " ++ l.invocation.subscription.subscriber ++ "::"
    ++ l.invocation.subscription.method ++ " failed on " ++ l.invocation.event.type.name ++ " (bus "
    ++ (w.bus l.invocation.bus).settings.identifier ++ "): " ++ l.returned.message
  sources : l.answered.sources = l.returned.message :: l.returned.message :: l.returned.sources

/-- The post went on. Its error counts the failures, this one among them, and names no other error. -/
structure Collected : Prop where
  answered : l.answered = .handlersFailed l.answered.failures
  carries : l.failure w ∈ l.answered.failures
  message : l.answered.message =
    toString l.answered.failures.length ++ " handlers failed during dispatch"
  sources : l.answered.sources = []

/-- What the error of a post that stopped lists above what the handler's error lists. -/
def twice : List String := [l.returned.message, l.returned.message]

/-- The handler failed with the error that came from below, in a post on the publisher's thread. -/
structure Follows (below : HandlerError) : Prop where
  returned : l.returned = below
  publisher : (w.bus l.invocation.bus).discipline = .publisher
  ended : .ended l.invocation (.failed l.returned) ∈ w.account l.invocation
  answered : .answered l.invocation.post (.failed l.answered) ∈ w.story l.invocation.post

end Setback

/-- What comes out of these setbacks, the outermost first, if the innermost handler returned `e`. -/
def HandlerError.through (e : HandlerError) (levels : List Setback) : HandlerError :=
  levels.head?.elim e fun l => .bus l.answered

/-- The innermost handler returned `e`, and each other one the error that the post below it answered. -/
def World.Inherits (w : World μ) (e : HandlerError) : List Setback → Prop
  | [] => True
  | l :: levels => l.Follows w (e.through levels) ∧ w.Inherits e levels

section Run

variable {β : Behaviour μ} {depth : Nat} {memory : μ} {body : Body μ α} {trace : Trace μ}
  {m : Machine μ α}

/-- Only buses with an executor submit deliveries. -/
theorem Run.discipline_of_submitted (h : Run β depth memory body trace m) {i : Invocation}
    (hsubmitted : .submitted i ∈ m.world.account i) : (m.world.bus i.bus).discipline ≠ .publisher := by
  rw [World.account_eq] at hsubmitted
  obtain ⟨t, name, hmem⟩ := h.activities.1.exists_record (List.mem_filter.mp hsubmitted).1
  obtain ⟨_, _, -, _, _, -, -, -, hdiscipline⟩ := h.activities.1.exists_allowed hmem
  exact hdiscipline

variable {l : Setback} {below : HandlerError} (h : Run β depth memory body trace m)
  (hfollows : l.Follows m.world below)

include h hfollows

theorem Run.concludes_of_setback : ∃ matched ran x, x ∈ ran ∧ x.invocation = l.invocation ∧
    x.reaction = .failed l.returned ∧
    m.world.Concludes (l.policy m.world) matched ran (.failed l.answered) := by
  rcases h.exists_performance hfollows.ended hfollows.answered with
    ⟨matched, ran, x, -, -, hx, hi, hr, hdispatch⟩ | ⟨hsubmitted, -⟩
  · exact ⟨matched, ran, x, hx, hi, hr, hdispatch.concludes⟩
  · exact absurd hfollows.publisher (h.discipline_of_submitted hsubmitted)

theorem Run.propagated (hpolicy : l.policy m.world = .propagate) : l.Propagated m.world := by
  obtain ⟨matched, ran, x, hx, hi, hr, hconcludes⟩ := h.concludes_of_setback hfollows
  have herror := hconcludes.first_error hpolicy x hx _ hr
  rw [hi] at herror
  have hanswer : l.answered = .handlerFailed (l.failure m.world) := Outcome.failed.inj herror
  refine ⟨hanswer, ?_, ?_⟩
  · rw [hanswer]
    exact l.invocation.message_failure _ (.error l.returned)
  · rw [hanswer]
    exact l.invocation.sources_failure (m.world.bus l.invocation.bus).settings.identifier
      (.error l.returned)

theorem Run.collected (hpolicy : l.policy m.world = .collect) : l.Collected m.world := by
  obtain ⟨matched, ran, x, hx, hi, hr, hconcludes⟩ := h.concludes_of_setback hfollows
  have hcalm : ∀ y ∈ ran, ∀ payload, y.reaction ≠ .panicked payload := by
    intro y hy payload hpanicked
    cases (hconcludes.panic_iff payload).mpr ⟨y, hy, hpanicked⟩
  have hfailed : x.reaction ≠ .fine := by
    rw [hr]
    intro heq
    cases heq
  obtain ⟨-, herror⟩ := hconcludes.all_errors hpolicy hcalm ⟨x, hx, hfailed⟩
  have hanswer : l.answered = .handlersFailed (m.world.errors ran) := Outcome.failed.inj herror
  have hcarries : l.failure m.world ∈ m.world.errors ran := by
    refine List.mem_filterMap.mpr ⟨x, hx, ?_⟩
    rw [hr, hi]
    rfl
  refine ⟨?_, ?_, ?_, ?_⟩
  · rw [hanswer]
    rfl
  · rw [hanswer]
    exact hcarries
  · rw [hanswer]
    rfl
  · rw [hanswer]
    rfl

end Run

/-- What each of these errors says by itself, and what the outermost one leads to. -/
structure World.Chains (w : World μ) (e : HandlerError) (levels : List Setback) : Prop where
  propagated : ∀ l ∈ levels, l.policy w = .propagate → l.Propagated w
  collected : ∀ l ∈ levels, l.policy w = .collect → l.Collected w
  /-- If all posts stopped, the outermost error leads down to the root cause. -/
  whole : (∀ l ∈ levels, l.policy w = .propagate) →
    (e.through levels).sources = levels.flatMap Setback.twice ++ e.sources ∧
    (e.through levels).sources.length = 2 * levels.length + e.sources.length ∧
    (levels ≠ [] → (e.through levels).sources.getLast? = some (e.sources.getLast?.getD e.message))
  /-- The outermost post that went on is where the chain ends, but its error carries the failure. -/
  cut : ∀ above l below, levels = above ++ l :: below → (∀ k ∈ above, k.policy w = .propagate) →
    l.policy w = .collect → l.failure w ∈ l.answered.failures ∧
    (e.through levels).sources = above.flatMap Setback.twice ∧
    (e.through levels).sources.length = 2 * above.length ∧
    (above ≠ [] → (e.through levels).sources.getLast? =
      some (toString l.answered.failures.length ++ " handlers failed during dispatch"))

theorem length_flatMap_twice (levels : List Setback) :
    (levels.flatMap Setback.twice).length = 2 * levels.length := by
  induction levels with
  | nil => rfl
  | cons l levels ih =>
    rw [List.flatMap_cons, List.length_append, ih, List.length_cons, Nat.mul_succ, Nat.add_comm]
    rfl

section Chain

variable {w : World μ} {e : HandlerError} {levels above below : List Setback}

theorem World.Inherits.exists_follows (h : w.Inherits e levels) {l : Setback} (hl : l ∈ levels) :
    ∃ below, l.Follows w below := by
  induction levels with
  | nil => cases hl
  | cons k levels ih =>
    rcases List.mem_cons.mp hl with rfl | hl
    · exact ⟨_, h.1⟩
    · exact ih h.2 hl

/-- Through posts that stopped, what an error lists stands behind everything that comes on top. -/
theorem World.Inherits.sources_append (h : w.Inherits e (above ++ below))
    (habove : ∀ l ∈ above, l.Propagated w) :
    (e.through (above ++ below)).sources =
      above.flatMap Setback.twice ++ (e.through below).sources := by
  induction above with
  | nil => rfl
  | cons l above ih =>
    obtain ⟨hl, habove⟩ := List.forall_mem_cons.mp habove
    obtain ⟨hfollows, hrest⟩ : l.Follows w (e.through (above ++ below)) ∧
      w.Inherits e (above ++ below) := h
    calc (e.through (l :: above ++ below)).sources
        _ = l.twice ++ l.returned.sources := hl.sources
        _ = l.twice ++ (above.flatMap Setback.twice ++ (e.through below).sources) := by
          rw [hfollows.returned, ih hrest habove]

/-- The deepest error that is named is the deepest one that came from below. -/
theorem World.Inherits.getLast?_sources (h : w.Inherits e (above ++ below))
    (habove : ∀ l ∈ above, l.Propagated w) (hne : above ≠ []) :
    (e.through (above ++ below)).sources.getLast? =
      some ((e.through below).sources.getLast?.getD (e.through below).message) := by
  induction above with
  | nil => exact absurd rfl hne
  | cons l above ih =>
    obtain ⟨hl, habove⟩ := List.forall_mem_cons.mp habove
    obtain ⟨hfollows, hrest⟩ : l.Follows w (e.through (above ++ below)) ∧
      w.Inherits e (above ++ below) := h
    have hsources : (e.through (l :: above ++ below)).sources = l.returned.message ::
        l.returned.message :: l.returned.sources := hl.sources
    rw [hsources, List.getLast?_cons_cons, List.getLast?_cons, hfollows.returned]
    cases above with
    | nil => rfl
    | cons k above => rw [ih hrest habove (List.cons_ne_nil k above), Option.getD_some]

end Chain

/-- When handlers return the errors of their own posts, however deep the posts are nested and whatever
their policies, each post that stopped wraps the error that came from below in a failure, so its message
quotes that error and its sources name the error twice before they go on below it. If all posts stopped,
the sources lead down to the root cause. A post that went on answers an error without sources, which
carries the failure instead: there the chain from outside ends. -/
theorem nested_errors_chain {β : Behaviour μ} {depth : Nat} {memory : μ} {body : Body μ α}
    {trace : Trace μ} {m : Machine μ α} {e : HandlerError} {levels : List Setback}
    (h : Run β depth memory body trace m) (hinherits : m.world.Inherits e levels) :
    m.world.Chains e levels := by
  have hfollows : ∀ l ∈ levels, ∃ below, l.Follows m.world below := fun _ => hinherits.exists_follows
  have hpropagated : ∀ l ∈ levels, l.policy m.world = .propagate → l.Propagated m.world :=
    fun l hl hpolicy => (hfollows l hl).elim fun _ hfollows => h.propagated hfollows hpolicy
  have hcollected : ∀ l ∈ levels, l.policy m.world = .collect → l.Collected m.world :=
    fun l hl hpolicy => (hfollows l hl).elim fun _ hfollows => h.collected hfollows hpolicy
  refine ⟨hpropagated, hcollected, fun hall => ?_, fun above l below hlevels habove hl => ?_⟩
  · have hstopped : ∀ l ∈ levels, l.Propagated m.world := fun l hl => hpropagated l hl (hall l hl)
    rw [← List.append_nil levels] at hinherits
    have hsources := hinherits.sources_append hstopped
    have hlast := hinherits.getLast?_sources hstopped
    rw [List.append_nil] at hsources hlast
    refine ⟨hsources, ?_, hlast⟩
    rw [hsources, List.length_append, length_flatMap_twice]
    rfl
  · subst hlevels
    have hself := hcollected l (by simp) hl
    have hstopped : ∀ k ∈ above, k.Propagated m.world := fun k hk =>
      hpropagated k (List.mem_append_left _ hk) (habove k hk)
    have hnone : (e.through (l :: below)).sources = [] := hself.sources
    have hsources := hinherits.sources_append hstopped
    rw [hnone, List.append_nil] at hsources
    refine ⟨hself.carries, hsources, ?_, fun hne => ?_⟩
    · rw [hsources, length_flatMap_twice]
    · rw [hinherits.getLast?_sources hstopped hne, hnone]
      exact congrArg some hself.message

namespace Leak

def tick : Event := ⟨⟨"Tick", "Tick", 0⟩, 0, ""⟩

def roof : Subscriber := ⟨⟨"Roof", 0⟩, "roof", [⟨"pass", true, .one .root, ⟨0⟩⟩]⟩

def hall : Subscriber :=
  ⟨⟨"Hall", 0⟩, "hall", [⟨"sleep", true, .one .root, ⟨1⟩⟩, ⟨"pass", true, .one .root, ⟨2⟩⟩]⟩

def cellar : Subscriber := ⟨⟨"Cellar", 0⟩, "cellar", [⟨"drip", true, .one .root, ⟨3⟩⟩]⟩

def cause : HandlerError := .foreign "leak" ["pipe", "rust"]

/-- A handler returns the error of its own post. -/
def inherited : Outcome → Reaction
  | .failed error => .failed (.bus error)
  | _ => .fine

def behaviour : Behaviour Unit where
  handle code _ :=
    if code.serial = 0 then .step (.post 1 tick) fun outcome => .done (inherited outcome)
    else if code.serial = 1 then .done (.failed (.text "late"))
    else if code.serial = 2 then .step (.post 2 tick) fun outcome => .done (inherited outcome)
    else .done (.failed cause)
  observe _ _ := .done none
  work _ := .done none

def body : Body Unit Outcome :=
  .step (.openBus ⟨"top", .propagate, []⟩ .publisher) fun top =>
    .step (.openBus ⟨"middle", .collect, []⟩ .publisher) fun middle =>
    .step (.openBus ⟨"bottom", .propagate, []⟩ .publisher) fun bottom =>
    .step (.register top roof) fun _ => .step (.register middle hall) fun _ =>
    .step (.register bottom cellar) fun _ => .step (.post top tick) fun outcome => .done outcome

/-- The machine after so many turns. -/
def after (turns : Nat) : Option (Trace Unit × Machine Unit Outcome) :=
  (Machine.start behaviour 4 () body).play behaviour 4 (List.replicate turns (.caller 0))

def call (post : PostId) (place : Nat) (s : Subscriber) (method : String) (code : Nat) : Invocation :=
  ⟨post, place, post, ⟨⟨s.owner, place⟩, s.name, method, .root, true, ⟨code⟩⟩, tick⟩

def dripping : Setback :=
  ⟨call 2 0 cellar "drip" 3, cause, .handlerFailed
    ((call 2 0 cellar "drip" 3).failure "bottom" (.error cause))⟩

def spreading : Setback :=
  ⟨call 1 1 hall "pass" 2, .bus dripping.answered,
    .handlersFailed [(call 1 0 hall "sleep" 1).failure "middle" (.error (.text "late")),
      (call 1 1 hall "pass" 2).failure "middle" (.error (.bus dripping.answered))]⟩

def surfacing : Setback :=
  ⟨call 0 0 roof "pass" 0, .bus spreading.answered,
    .handlerFailed ((call 0 0 roof "pass" 0).failure "top" (.error (.bus spreading.answered)))⟩

/-- What the history says about a setback: how the handler ended, and what its post answered. -/
def seen (w : World Unit) (l : Setback) : Discipline × Option Occurrence × Option Occurrence :=
  ((w.bus l.invocation.bus).discipline, (w.account l.invocation)[1]?,
    (w.story l.invocation.post).getLast?)

def shown (l : Setback) : Discipline × Option Occurrence × Option Occurrence :=
  (.publisher, some (.ended l.invocation (.failed l.returned)),
    some (.answered l.invocation.post (.failed l.answered)))

theorem seen_setbacks : (after 61).map (fun run =>
    [surfacing, spreading, dripping].map (seen run.2.world)) =
    some ([surfacing, spreading, dripping].map shown) := rfl

theorem follows_of_seen {w : World Unit} {l : Setback} (h : seen w l = shown l) :
    l.Follows w l.returned := by
  obtain ⟨hpublisher, h⟩ := Prod.mk.inj h
  obtain ⟨hended, hanswered⟩ := Prod.mk.inj h
  exact ⟨rfl, hpublisher, List.mem_of_getElem? hended, List.mem_of_getLast? hanswered⟩

end Leak

open Leak in
/-- The only handler of the cellar returns an error with two errors below it. The second handler of the
hall, whose bus goes on after errors, posts to the cellar and returns what it gets, and so does the
handler of the roof, which posts to the hall. The outermost error names the two failures of the hall and
nothing below them. -/
theorem nested_errors_chain_up_to_collected :
    ∃ trace m, Run behaviour 4 () body trace m ∧ m.world.Inherits cause [surfacing, spreading, dripping] ∧
      m.world.Chains cause [surfacing, spreading, dripping] ∧
      m.world.Chains cause [dripping] ∧
      (cause.through [surfacing, spreading, dripping]).sources =
        ["2 handlers failed during dispatch", "2 handlers failed during dispatch"] ∧
      (cause.through [dripping]).sources = ["leak", "leak", "pipe", "rust"] := by
  obtain ⟨⟨trace, m⟩, hplay, hseen⟩ := Option.map_eq_some_iff.mp seen_setbacks
  have hrun := Run.of_play hplay
  obtain ⟨htop, hothers⟩ := List.cons.inj hseen
  obtain ⟨hmiddle, hothers⟩ := List.cons.inj hothers
  obtain ⟨hbottom, -⟩ := List.cons.inj hothers
  have hlowest : m.world.Inherits cause [dripping] := ⟨follows_of_seen hbottom, trivial⟩
  have hall : m.world.Inherits cause [surfacing, spreading, dripping] :=
    ⟨follows_of_seen htop, follows_of_seen hmiddle, hlowest⟩
  exact ⟨trace, m, hrun, hall, nested_errors_chain hrun hall, nested_errors_chain hrun hlowest, rfl, rfl⟩

end PubSub
