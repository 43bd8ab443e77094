import PubSub.Proofs.Evidence

/-!
# The fate of a delivery

Whatever threads do and executors do with their jobs, a delivery that has been submitted waits, or is
being run or dropped by a thread that has not come to its end, or was run once, or was lost and
reported once to everyone. What has come to its end stays as it is.
-/
namespace PubSub

variable {μ α : Type}

/-- What a handler that ends like this is reported for. -/
def Reaction.cause? : Reaction → Option Cause
  | .fine => none
  | .failed error => some (.error error)
  | .panicked payload => some (.panicked payload.message)

/-- A thread begins to run a delivery, or to drop it. -/
def Deed.Begins (deed : Deed μ) (i : Invocation) : Prop :=
  deed.taken? = some i ∨ ∃ name executor, deed = .step (.record name (.dropped i executor)) ()

/-- The post of an invocation has selected its handler, which had been registered before. -/
def Trace.Selects (trace : Trace μ) (i : Invocation) : Prop :=
  ∃ later t deed earlier, trace = later ++ (t, deed) :: earlier ∧ deed.Selects i ∧
    Enrolled earlier i.bus i.subscription

/-- The object to which the table of the bus takes the event of an invocation. -/
def World.Casts (w : World μ) (i : Invocation) (object : Object) : Prop :=
  ∃ table route, (w.bus i.bus).tables.get? i.event.type = some table ∧
    (i.subscription.topic, route) ∈ table ∧
    route.follow i.event i.subscription.topic = some object

/-- Everyone on the bus of an invocation is told about its failure, in their order. -/
def World.reports (w : World μ) (i : Invocation) (cause : Cause) : List Occurrence :=
  (w.bus i.bus).observers.zipIdx.map fun (observer, place) =>
    .reported i place observer (i.failure (w.bus i.bus).settings.identifier cause)

/-- What can become of a delivery. -/
inductive Fate where
  | waiting
  | underway
  | run
  | lost
deriving DecidableEq

/-- A delivery waits where an executor has stored it, or where its post is about to hand it over. It
is underway in a thread that is at work. Later its whole story is told. -/
def Fate.Meets (trace : Trace μ) (m : Machine μ α) (i : Invocation) : Fate → Prop
  | .waiting => m.world.account i = [.submitted i] ∧ (∀ entry ∈ trace, ¬ entry.2.Begins i) ∧
      (m.world.jobs.countP (Job.isOf i) = 1 ∨
        m.world.jobs.countP (Job.isOf i) = 0 ∧ (∀ entry ∈ trace, entry.2.accepted? ≠ some i) ∧
          ∃ t name, m.IsAtWork t ∧ (t, .step (.record name (.submitted i)) ()) ∈ trace)
  | .underway => .settled i ∉ m.world.account i ∧ m.world.jobs.countP (Job.isOf i) = 0 ∧
      ∃ t deed, m.IsAtWork t ∧ (t, deed) ∈ trace ∧ deed.Begins i
  | .run => m.world.jobs.countP (Job.isOf i) = 0 ∧ trace.Selects i ∧
      ∃ object r, m.world.Casts i object ∧ m.world.account i =
        .submitted i :: .called i object :: .ended i r ::
          (r.cause?.elim [] (m.world.reports i) ++ [.settled i])
  | .lost => m.world.jobs.countP (Job.isOf i) = 0 ∧ ∃ executor,
      m.world.account i = .submitted i :: .dropped i executor ::
        (m.world.reports i (.abandoned executor) ++ [.settled i])

/-- A post selects handlers that have been registered before. -/
theorem Run.enrolled {β : Behaviour μ} {depth : Nat} {memory : μ} {body : Body μ α}
    {trace : Trace μ} {m : Machine μ α} (h : Run β depth memory body trace m) {i : Invocation}
    {later earlier : Trace μ} {t : Turn} {deed : Deed μ}
    (hsplit : trace = later ++ (t, deed) :: earlier) (hselects : deed.Selects i) :
    Enrolled earlier i.bus i.subscription := by
  induction h generalizing later with
  | start =>
    exact absurd hsplit.symm (List.append_ne_nil_of_right_ne_nil _ (List.cons_ne_nil _ _))
  | @turn trace m m' u before moved ih =>
    have hmoving := moving (before.turn moved).protocol.1
    have hturned := Machine.turn_turned moved
    generalize m.deeds u = deeds at hturned hmoving hsplit
    cases deeds with
    | nil => exact ih hsplit
    | cons first rest =>
      have hrest : rest = [] := by cases hturned <;> rfl
      subst hrest
      cases later with
      | cons entry later => exact ih (List.cons.inj hsplit).2
      | nil =>
        obtain ⟨heq, rfl⟩ := List.cons.inj hsplit
        obtain ⟨rfl, rfl⟩ := Prod.mk.inj heq
        obtain ⟨name, invocations, rfl, hi⟩ := hselects
        cases hmoving with
        | deed _ _ backed =>
          obtain ⟨route, hfits⟩ := backed i hi
          obtain ⟨v, owner, added, hmem, hs⟩ := hfits.enrolled
          rcases List.mem_cons.mp hmem with heq | hmem
          · cases heq
          · exact ⟨v, owner, added, hmem, hs⟩

section Outcome

variable {trace : Trace μ} {w : World μ} {i : Invocation}

theorem World.reports_of_complete {phase : Phase}
    (h : (Outlook.of trace w).Complete ⟨i, phase, none⟩) :
    (Outlook.of trace w).reports i phase = phase.cause?.elim [] (w.reports i) := by
  rw [Outlook.Complete] at h
  rw [Outlook.reports]
  split
  · rename_i hcause
    rw [hcause]
    rfl
  · rename_i cause hcause
    rw [hcause] at h ⊢
    have htold : phase.told = ((Outlook.of trace w).observers i.bus).length := h
    rw [htold, List.take_length]
    rfl

theorem Phase.cause?_ended (r : Reaction) (told : Nat) : (Phase.ended r told).cause? = r.cause? := by
  cases r <;> rfl

theorem World.casts_of_bound {object : Object} (h : (Outlook.of trace w).Bound i object) :
    w.Casts i object := by
  obtain ⟨route, hfits, hfollow⟩ := h
  have hlisted : (i.subscription.topic, route) ∈
      ((w.bus i.bus).tables.get? i.event.type).getD [] := hfits.listed
  cases htable : (w.bus i.bus).tables.get? i.event.type with
  | none => rw [htable] at hlisted; cases hlisted
  | some table =>
    rw [htable] at hlisted
    exact ⟨table, route, htable, hlisted, hfollow⟩

/-- The story of a delivery that has come to its end. -/
theorem Outlook.Story.settled {phase : Phase} {l : List Occurrence}
    (h : (Outlook.of trace w).Story i phase l) (hover : phase.isOver = true)
    (hcomplete : (Outlook.of trace w).Complete ⟨i, phase, none⟩) :
    (∃ object r, w.Casts i object ∧
      l = .called i object :: .ended i r :: r.cause?.elim [] (w.reports i)) ∨
    ∃ executor, l = .dropped i executor :: w.reports i (.abandoned executor) := by
  have hreports := World.reports_of_complete hcomplete
  cases h with
  | offered => cases hover
  | taken => cases hover
  | running => cases hover
  | ended bound =>
    rw [hreports, Phase.cause?_ended]
    exact .inl ⟨_, _, World.casts_of_bound bound, rfl⟩
  | lost =>
    rw [hreports]
    exact .inr ⟨_, rfl⟩

/-- Nobody has begun to run or to drop what has only been submitted. -/
theorem Outlook.not_begun {O : Outlook} (h : O.protocol.Lawful trace w)
    (huntaken : ∀ entry ∈ trace, entry.2.taken? ≠ some i) (haccount : w.account i = [.submitted i]) :
    ∀ entry ∈ trace, ¬ entry.2.Begins i := by
  rintro ⟨t, deed⟩ hmem (htaken | ⟨name, executor, rfl⟩)
  · exact huntaken _ hmem htaken
  · have hdropped := h.mem_account hmem rfl
    rw [haccount] at hdropped
    cases List.mem_singleton.mp hdropped

end Outcome

section Run

variable {β : Behaviour μ} {depth : Nat} {memory : μ} {body : Body μ α} {trace : Trace μ}
  {m : Machine μ α} {i : Invocation}

theorem Standing.stack_ne_nil {g : Standing} {x : Invocation × Place} (h : x ∈ g.mentions) :
    g.stack ≠ [] := by
  intro hnil
  rw [Standing.mentions, hnil] at h
  cases h

/-- What is in hand is in the hands of a thread at work. -/
theorem Run.exists_at_work (h : Run β depth memory body trace m) {job : Bool} {phase : Phase}
    (hp : (Outlook.of trace m.world).IsAt trace m.world i (some (.held job phase))) :
    ∃ t, m.IsAtWork t ∧ trace.Shows t i (.held job phase) := by
  obtain ⟨hlawful, horderly⟩ := h.protocol
  have hplace : .held job phase ∈ (Outlook.of trace m.world).places trace m.world i := by
    rw [hp.place]
    exact List.mem_singleton_self _
  obtain ⟨t, ht⟩ := Outlook.exists_mention hplace
  exact ⟨t, Outlook.isAtWork_of_stack (horderly t) (Standing.stack_ne_nil ht),
    (moving hlawful).shows t _ ht⟩

theorem Outlook.IsAt.countP_jobs {O : Outlook} {p : Place} (h : O.IsAt trace m.world i (some p)) :
    m.world.jobs.countP (Job.isOf i) = p.isStored.toNat := by
  rw [Outlook.countP_isOf O trace, h.place]
  cases p <;> rfl

theorem Run.waiting_of_offered (h : Run β depth memory body trace m)
    (hp : (Outlook.of trace m.world).IsAt trace m.world i (some (.held false .offered))) :
    Fate.waiting.Meets trace m i := by
  have haccount : m.world.account i = [.submitted i] := by
    have htells := hp.tells
    generalize m.world.account i = account at htells
    cases htells with
    | held story =>
    cases story
    rfl
  obtain ⟨t, hwork, name, hmem⟩ := h.exists_at_work hp
  refine ⟨haccount, Outlook.not_begun h.protocol.1 (hp.untaken rfl) haccount, .inr ?_⟩
  exact ⟨hp.countP_jobs, hp.unaccepted rfl, t, name, hwork, hmem⟩

theorem Run.waiting_of_stored (h : Run β depth memory body trace m)
    (hp : (Outlook.of trace m.world).IsAt trace m.world i (some .stored)) :
    Fate.waiting.Meets trace m i := by
  have haccount : m.world.account i = [.submitted i] := by
    have htells := hp.tells
    generalize m.world.account i = account at htells
    cases htells
    rfl
  exact ⟨haccount, Outlook.not_begun h.protocol.1 (hp.untaken rfl) haccount, .inl hp.countP_jobs⟩

theorem Run.underway_of_begun (h : Run β depth memory body trace m) {job : Bool} {phase : Phase}
    (hp : (Outlook.of trace m.world).IsAt trace m.world i (some (.held job phase)))
    (hmine : job = true ∨ ∃ executor told, phase = .lost executor told) :
    Fate.underway.Meets trace m i := by
  refine ⟨?_, hp.countP_jobs, ?_⟩
  · have htells := hp.tells
    generalize m.world.account i = account at htells
    cases htells with
    | held story =>
    rw [Outlook.opening_of_mine hmine]
    rintro (_ | ⟨_, hmem⟩)
    exact story.settled_not_mem hmem
  · obtain ⟨t, hwork, hshows⟩ := h.exists_at_work hp
    rcases hmine with rfl | ⟨executor, told, rfl⟩
    · obtain ⟨deed, hmem, htaken⟩ := hshows
      exact ⟨t, deed, hwork, hmem, .inl htaken⟩
    · cases job with
      | true =>
        obtain ⟨deed, hmem, htaken⟩ := hshows
        exact ⟨t, deed, hwork, hmem, .inl htaken⟩
      | false =>
        obtain ⟨name, hmem⟩ := hshows
        exact ⟨t, _, hwork, hmem, .inr ⟨name, executor, rfl⟩⟩

theorem Run.selects (h : Run β depth memory body trace m) {O : Outlook} {p : Place}
    (hp : O.IsAt trace m.world i (some p)) (hselected : p.isSelected = true) : trace.Selects i := by
  obtain ⟨⟨t, deed⟩, hmem, hselects⟩ := hp.selected hselected
  obtain ⟨later, earlier, hsplit⟩ := List.append_of_mem hmem
  exact ⟨later, t, deed, earlier, hsplit, hselects, h.enrolled hsplit hselects⟩

theorem Run.over_of_settled (h : Run β depth memory body trace m)
    (hp : (Outlook.of trace m.world).IsAt trace m.world i (some .settled)) :
    Fate.run.Meets trace m i ∨ Fate.lost.Meets trace m i := by
  have htells := hp.tells
  generalize haccount : m.world.account i = account at htells
  cases htells with
  | settled isOver complete story =>
  rcases story.settled isOver complete with ⟨object, r, hcasts, rfl⟩ | ⟨executor, rfl⟩
  · exact .inl ⟨hp.countP_jobs, h.selects hp rfl, object, r, hcasts, haccount⟩
  · exact .inr ⟨hp.countP_jobs, executor, haccount⟩

theorem Run.exists_fate (h : Run β depth memory body trace m)
    (hsubmitted : .submitted i ∈ m.world.account i) : ∃ fate : Fate, fate.Meets trace m i := by
  obtain ⟨p, hp⟩ := (Outlook.located h.protocol.1 i).somewhere
  have htells := hp.tells
  generalize m.world.account i = account at htells hsubmitted
  cases htells with
  | nowhere unsubmitted => exact absurd hsubmitted unsubmitted
  | unborn => cases hsubmitted
  | planned => cases hsubmitted
  | stored => exact ⟨_, h.waiting_of_stored hp⟩
  | settled => exact (h.over_of_settled hp).elim (⟨_, ·⟩) (⟨_, ·⟩)
  | @held job phase _ story =>
    cases job with
    | true => exact ⟨_, h.underway_of_begun hp (.inl rfl)⟩
    | false =>
      cases phase with
      | offered => exact ⟨_, h.waiting_of_offered hp⟩
      | lost executor told => exact ⟨_, h.underway_of_begun hp (.inr ⟨_, _, rfl⟩)⟩
      | _ => exact absurd hsubmitted story.submitted_not_mem

end Run

namespace Fate

variable {trace : Trace μ} {m : Machine μ α} {i : Invocation} {fate fate' : Fate}

def isOver : Fate → Bool
  | .run | .lost => true
  | _ => false

theorem Meets.of_isOver (h : fate.Meets trace m i) (hover : fate.isOver = true) :
    ∃ l, m.world.account i = l ++ [.settled i] ∧ .settled i ∉ l := by
  have hreports : ∀ cause, .settled i ∉ m.world.reports i cause := by
    intro cause hmem
    obtain ⟨_, -, heq⟩ := List.mem_map.mp hmem
    cases heq
  cases fate with
  | waiting => cases hover
  | underway => cases hover
  | run =>
    obtain ⟨-, -, object, r, -, haccount⟩ := h
    refine ⟨_ :: _ :: _ :: r.cause?.elim [] (m.world.reports i), haccount, ?_⟩
    rintro (_ | ⟨_, _ | ⟨_, _ | ⟨_, hmem⟩⟩⟩)
    cases hcause : r.cause? with
    | none => rw [hcause] at hmem; cases hmem
    | some cause => rw [hcause] at hmem; exact hreports cause hmem
  | lost =>
    obtain ⟨-, executor, haccount⟩ := h
    refine ⟨_ :: _ :: m.world.reports i (.abandoned executor), haccount, ?_⟩
    rintro (_ | ⟨_, _ | ⟨_, hmem⟩⟩)
    exact hreports _ hmem

/-- A fate is over when the history says so. -/
theorem Meets.isOver_iff (h : fate.Meets trace m i) :
    fate.isOver = true ↔ .settled i ∈ m.world.account i := by
  constructor
  · intro hover
    obtain ⟨l, haccount, -⟩ := h.of_isOver hover
    rw [haccount]
    exact List.mem_append_right _ (List.mem_singleton_self _)
  · intro hmem
    cases fate with
    | waiting =>
      rw [h.1] at hmem
      cases List.mem_singleton.mp hmem
    | underway => exact absurd hmem h.1
    | run => rfl
    | lost => rfl

theorem not_waiting_and_underway (h : Fate.waiting.Meets trace m i)
    (h' : Fate.underway.Meets trace m i) : False := by
  obtain ⟨-, hnone, -⟩ := h
  obtain ⟨-, -, t, deed, -, hmem, hbegins⟩ := h'
  exact hnone _ hmem hbegins

theorem not_run_and_lost (h : Fate.run.Meets trace m i) (h' : Fate.lost.Meets trace m i) : False := by
  obtain ⟨-, -, object, r, -, hrun⟩ := h
  obtain ⟨-, executor, hlost⟩ := h'
  rw [hrun] at hlost
  cases (List.cons.inj (List.cons.inj hlost).2).1

theorem Meets.unique (h : fate.Meets trace m i) (h' : fate'.Meets trace m i) : fate = fate' := by
  have hover : fate.isOver = fate'.isOver := Bool.eq_iff_iff.mpr (h.isOver_iff.trans h'.isOver_iff.symm)
  cases fate <;> cases fate' <;> first | rfl | cases hover
  · exact (not_waiting_and_underway h h').elim
  · exact (not_waiting_and_underway h' h).elim
  · exact (not_run_and_lost h h').elim
  · exact (not_run_and_lost h' h).elim

end Fate

/-- What ends with the only occurrence of something cannot go on to end with it. -/
theorem eq_of_append_singleton {A : Type} {x : A} {l l' more : List A}
    (h : l' ++ [x] = (l ++ [x]) ++ more) (hnew : x ∉ l') : l' = l := by
  rcases List.eq_nil_or_concat more with rfl | ⟨more, y, rfl⟩
  · rw [List.append_nil] at h
    exact List.append_cancel_right h
  · rw [List.concat_eq_append, ← List.append_assoc] at h
    obtain ⟨rfl, -⟩ := List.append_inj' h rfl
    exact absurd (List.mem_append_left _ (List.mem_append_right _ (List.mem_singleton_self x))) hnew

/-- Whatever the order of turns: a delivery that has been submitted has exactly one fate. If it is over,
nothing that happens later changes it. -/
theorem submitted_deliveries_have_one_fate {β : Behaviour μ} {depth : Nat} {memory : μ}
    {body : Body μ α} {trace : Trace μ} {m : Machine μ α} {i : Invocation}
    (h : Run β depth memory body trace m) (hsubmitted : .submitted i ∈ m.world.account i) :
    (∃! fate : Fate, fate.Meets trace m i) ∧
    ∀ turns later m', m.play β depth turns = some (later, m') → .settled i ∈ m.world.account i →
      m'.world.account i = m.world.account i := by
  obtain ⟨fate, hfate⟩ := h.exists_fate hsubmitted
  refine ⟨⟨fate, hfate, fun fate' hfate' => hfate'.unique hfate⟩, ?_⟩
  intro turns later m' hplay hsettled
  have hrun := h.play hplay
  have hgrows : m'.world.account i = m.world.account i ++
      later.reverse.flatMap fun entry => Outlook.said i entry.2 := by
    rw [hrun.protocol.1.account, h.protocol.1.account, List.reverse_append, List.flatMap_append]
  obtain ⟨fate', hfate'⟩ := hrun.exists_fate (hgrows ▸ List.mem_append_left _ hsubmitted)
  obtain ⟨l, haccount, -⟩ := hfate.of_isOver (hfate.isOver_iff.mpr hsettled)
  obtain ⟨l', haccount', hnew⟩ := hfate'.of_isOver
    (hfate'.isOver_iff.mpr (hgrows ▸ List.mem_append_left _ hsettled))
  rw [haccount, haccount'] at hgrows
  rw [haccount, haccount', eq_of_append_singleton hgrows hnew]

def Occurrence.submitted? : Occurrence → Option Invocation
  | .submitted i => some i
  | _ => none

def Occurrence.settled? : Occurrence → Option Invocation
  | .settled i => some i
  | _ => none

theorem Occurrence.submitted?_eq_some {o : Occurrence} {i : Invocation} :
    o.submitted? = some i ↔ o = .submitted i := by
  cases o <;> simp [submitted?]

theorem Occurrence.settled?_eq_some {o : Occurrence} {i : Invocation} :
    o.settled? = some i ↔ o = .settled i := by
  cases o <;> simp [settled?]

instance (i : Invocation) (l : List Occurrence) : Decidable (.submitted i ∈ l) :=
  decidable_of_iff (some i ∈ l.map Occurrence.submitted?) (by
    simp only [List.mem_map, Occurrence.submitted?_eq_some, exists_eq_right])

instance (i : Invocation) (l : List Occurrence) : Decidable (.settled i ∈ l) :=
  decidable_of_iff (some i ∈ l.map Occurrence.settled?) (by
    simp only [List.mem_map, Occurrence.settled?_eq_some, exists_eq_right])

/-- An executor keeps the job of a clock until the clock is unregistered. Then the clock strikes and
breaks, which everyone is told, and never strikes again for this event. -/
theorem submitted_deliveries_have_one_fate_on_late_run :
    let tick : Event := ⟨⟨"Tick", "Tick", 0⟩, 0, ""⟩
    let clock : Subscriber := ⟨⟨"Clock", 0⟩, "clock", [⟨"strike", false, .one .root, ⟨0⟩⟩]⟩
    let i : Invocation := ⟨0, 0, 0, ⟨⟨clock.owner, 0⟩, "clock", "strike", .root, false, ⟨0⟩⟩, tick⟩
    let β : Behaviour Unit := {
      handle _ _ := .done (.panicked (.literal "broken"))
      observe _ _ := .done none
      work _ := .done none }
    let body : Body Unit Unit :=
      .step (.openManual "yard" none (.rejected "yard" "full")) fun e =>
        .step (.openBus .standard (.executor e)) fun b => .step (.register b clock) fun _ =>
          .step (.post b tick) fun _ => .step (.unregister b clock.owner "clock") fun _ =>
            .step (.runAt e 0) fun _ => .done ()
    ∃ trace m, Run β 2 () body trace m ∧ (m.world.bus 0).roster.contains clock.owner = false ∧
      .submitted i ∈ m.world.account i ∧ (m.world.account i).length = 5 ∧
      (∃! fate : Fate, fate.Meets trace m i) ∧
      ∀ turns later m', m.play β 2 turns = some (later, m') →
        m'.world.account i = m.world.account i := by
  intro tick clock i β body
  have hseen : ((Machine.start β 2 () body).play β 2 (List.replicate 37 (.caller 0))).any (fun (_, m) =>
      (m.world.bus 0).roster.contains clock.owner = false ∧ .submitted i ∈ m.world.account i ∧
      .settled i ∈ m.world.account i ∧ (m.world.account i).length = 5) = true := by
    decide +kernel
  obtain ⟨trace, m, hrun, hseen⟩ := Run.exists_of_play hseen
  obtain ⟨hgone, hsubmitted, hsettled, hlength⟩ := of_decide_eq_true hseen
  obtain ⟨hfate, hfinal⟩ := submitted_deliveries_have_one_fate hrun hsubmitted
  exact ⟨trace, m, hrun, hgone, hsubmitted, hlength, hfate,
    fun turns later m' hlater => hfinal turns later m' hlater hsettled⟩

end PubSub
