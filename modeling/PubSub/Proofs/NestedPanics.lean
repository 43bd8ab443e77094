import PubSub.Proofs.Panics
import PubSub.Proofs.Unhindered

/-!
# A panic beneath nested posts

A handler panics, the post in which it was called was made by another handler, and so on up to a post
that the client made or to a job. Unless some handler on the way catches the panic, everyone on the way
reports it once and stops, and in the end the client gets the payload that was raised, or the job ends.
-/
namespace PubSub

open Program Proc

variable {μ α γ : Type}

/-- The bus is open, and the code of its observers holds nobody up. -/
structure World.Attended (first : World μ) (client : Client μ) (b : BusId) : Prop where
  isOpen : b < first.buses.length
  observers : ∀ label name body, .custom label name body ∈ (first.bus b).settings.observers →
    ∀ failure, Unhindered (·.BusesExtend first) (client.observe body failure) fun _ => True

/-- Neither the observers of these buses nor what the bodies of handlers do on their way out holds a
panic up. -/
def World.Unobstructed (first : World μ) (β : Behaviour μ) (t : Thread) (payload : Payload) :
    (n : Nat) → List (Layer μ) → Prop
  | _, [] => True
  | n, l :: layers => first.Attended (β.client (β.perform n t)) l.invocation.bus ∧
      Unhindered (·.BusesExtend first) ((l.resume (.panicked payload)).expand (β.perform (n + 1) t))
        (fun _ => True) ∧
      first.Unobstructed β t payload (n + 1) layers

section Unhindered

variable {first : World μ} {client : Client μ} {t : Thread} {payload : Payload}

theorem HandlerCall.unhindered_rest {c : HandlerCall} (hb : c.invocation.bus < first.buses.length)
    (r : Reaction) : Unhindered (·.BusesExtend first) (c.rest t (.done r)) (· = r) := by
  unfold rest
  split
  · exact (unhindered_record t _).bind fun _ _ => rfl
  · refine Unhindered.bind (Q := (· = r)) ((unhindered_record t _).bind fun _ _ => rfl) fun r' hr => ?_
    refine (unhindered_free fun _ => rfl).bind fun _ _ =>
      (unhindered_free fun _ => rfl).bind fun _ _ => ?_
    refine (unhindered_readBus (fun _ h => h) hb).bind fun bus _ => ?_
    by_cases hpresent : bus.roster.contains c.invocation.subscription.id.owner = true
    · rw [if_pos hpresent]
      exact hr
    · rw [if_neg hpresent]
      exact (unhindered_free fun _ => rfl).bind fun _ _ => hr

theorem unhindered_report {i : Invocation} (h : first.Attended client i.bus) (cause : Cause) :
    Unhindered (·.BusesExtend first) (tellAll client t i cause) fun _ => True :=
  unhindered_tellAll (fun _ h => h) h.isOpen h.observers t cause

theorem PostCall.unhindered_panicked {p : PostCall} (h : first.Attended client p.invocation.bus) :
    Unhindered (·.BusesExtend first) (p.restOfPost client t (.done (.panicked payload)))
      (· = .panicked payload) := by
  refine Unhindered.bind (Q := (· = .panicked payload))
    (Unhindered.bind (p.unhindered_rest h.isOpen _) ?_)
    ?_
  · rintro _ rfl
    exact (unhindered_report h _).bind fun _ _ => rfl
  · rintro _ rfl
    exact (unhindered_record t _).bind fun _ _ => rfl

theorem HandlerCall.unhindered_panicked {c : HandlerCall} (h : first.Attended client c.invocation.bus) :
    Unhindered (·.BusesExtend first) (c.restOfJob client t (.done (.panicked payload))) (· = none) := by
  refine Unhindered.bind (c.unhindered_rest h.isOpen _) ?_
  rintro _ rfl
  exact (unhindered_report h _).bind fun _ _ => (unhindered_record t _).bind fun _ _ => rfl

/-- A body that can only end in one way ends in this way. -/
theorem Program.Only.unhindered {P : World μ → Prop} {body : Body μ γ} {a : γ}
    {meaning : (c : Call μ) → Proc μ c.Reply} (h : body.Only a)
    (hfree : Unhindered P (body.expand meaning) fun _ => True) :
    Unhindered P (body.expand meaning) (· = a) := by
  induction body with
  | done b => exact h
  | never => exact hfree
  | step c next ih =>
    exact unhindered_bind.mpr ((unhindered_bind.mp hfree).mono fun reply => ih reply (h reply))

theorem unhindered_climb {β : Behaviour μ} {n : Nat} {layers : List (Layer μ)}
    (huncaught : ∀ l ∈ layers, (l.resume (.panicked payload)).Only (.panicked payload))
    (hfree : first.Unobstructed β t payload n layers) :
    Unhindered (·.BusesExtend first) (climb β t n layers (.done (.panicked payload)))
      (· = .panicked payload) := by
  induction layers generalizing n with
  | nil => exact rfl
  | cons l layers ih =>
    obtain ⟨hl, hlayers⟩ := List.forall_mem_cons.mp huncaught
    obtain ⟨hattended, hresumes, habove⟩ := hfree
    rw [climb, climb_eq_bind]
    refine Unhindered.bind (Q := (· = .panicked payload))
      (Unhindered.bind (l.unhindered_panicked hattended) ?_) ?_
    · rintro _ rfl
      exact hl.unhindered hresumes
    · rintro _ rfl
      exact ih hlayers habove

end Unhindered

/-- What a panic has left behind up to a handler whose call ended in this record: from the innermost to
the outermost, everyone gave back the lock of its handler, then told the observers of its bus, and then
went on, and none of the posts called another handler. -/
structure World.Unwound (w : World μ) (t : Thread) (payload : Payload) (layers : List (Layer μ))
    (outer : HandlerCall) (last : Occurrence) (deeds : List (Deed μ)) : Prop where
  in_order : (w.trail t payload layers ++ w.unwinding t payload outer last).Sublist
    (deeds.filterMap Deed.step?)
  stopped : ∀ l ∈ layers, ∃ object before behind, w.Stopped payload l.invocation object before behind

/-- A thread that has come to this program ends it with this answer, having left that behind. If nothing
holds it up, then wherever other threads stand, it can come to the end by itself. -/
structure Machine.Arrives (β : Behaviour μ) (depth : Nat) (m : Machine μ α) (u : Turn) (p : Proc μ γ)
    (answer : γ) (leaves : World μ → List (Deed μ) → Prop) (free : Prop) : Prop where
  ends : ∀ later m' deeds a, m.Course β depth later m' → deeds <+: later.deedsOf u → Ends p deeds a →
    a = answer ∧ leaves m'.world deeds
  returns : free → ∀ later m', m.Course β depth later m' → ∃ more m'' deeds,
    m'.Course β depth more m'' ∧ (∀ entry ∈ more, entry.1 = u) ∧ deeds <+: (more ++ later).deedsOf u ∧
      Ends p deeds answer

theorem mem_of_sublist_record {t : Thread} {o : Occurrence} {shown : List (Step μ)}
    {deeds : List (Deed μ)}
    (h : shown.Sublist (deeds.filterMap Deed.step?)) (ho : .record t o ∈ shown) :
    .step (.record t o) () ∈ deeds := by
  obtain ⟨deed, hdeed, hstep⟩ := List.mem_filterMap.mp (h.subset ho)
  cases deed with
  | step s reply =>
    cases hstep
    exact hdeed
  | _ => cases hstep

section Runs

variable {β : Behaviour μ} {depth : Nat} {memory : μ} {body : Body μ α} {trace : Trace μ}
  {m : Machine μ α} {payload : Payload} {t : Thread} {u : Turn} {deeds : List (Deed μ)}

theorem Run.keepsSettings (h : Run β depth memory body trace m)
    (hdone : ∀ deed ∈ deeds, (u, deed) ∈ trace) : m.world.KeepsSettings deeds :=
  fun _ _ hread => (h.trusts (hdone _ hread)).1.1

theorem Run.ended_of_unwinding (h : Run β depth memory body trace m)
    (hdone : ∀ deed ∈ deeds, (u, deed) ∈ trace) {c : HandlerCall} {last : Occurrence}
    (hshown : (m.world.unwinding t payload c last).Sublist (deeds.filterMap Deed.step?)) :
    .ended c.invocation (.panicked payload) ∈ m.world.account c.invocation ∧
      (u, .step (.record t last) ()) ∈ trace := by
  have hended := mem_of_sublist_record hshown List.mem_cons_self
  have hlast : .step (.record t last) () ∈ deeds :=
    mem_of_sublist_record hshown (by simp [World.unwinding])
  exact ⟨h.protocol.1.mem_account (hdone _ hended) rfl, hdone _ hlast⟩

theorem Run.stopped_of_unwinding (h : Run β depth memory body trace m)
    (hdone : ∀ deed ∈ deeds, (u, deed) ∈ trace) {c : HandlerCall}
    (hshown : (m.world.unwinding t payload c (.answered c.invocation.post (.panicked payload))).Sublist
      (deeds.filterMap Deed.step?)) :
    ∃ object before behind, m.world.Stopped payload c.invocation object before behind := by
  obtain ⟨hended, hanswered⟩ := h.ended_of_unwinding hdone hshown
  exact h.exists_stopped hended (h.rounds.mem_story hanswered rfl)

theorem Run.stopped_of_trail (h : Run β depth memory body trace m)
    (hdone : ∀ deed ∈ deeds, (u, deed) ∈ trace) {layers : List (Layer μ)}
    (hshown : (m.world.trail t payload layers).Sublist (deeds.filterMap Deed.step?)) :
    ∀ l ∈ layers, ∃ object before behind, m.world.Stopped payload l.invocation object before behind := by
  intro l hl
  refine h.stopped_of_unwinding (t := t) hdone (List.Sublist.trans ?_ hshown)
  exact List.sublist_flatten_of_mem (List.mem_map_of_mem hl)

variable {n : Nat} {layers : List (Layer μ)} {answer : γ} {f : Reaction → Proc μ γ}
  {next : γ → Proc μ Unit} {last : Occurrence} {free : Prop}

/-- The panic comes to the outermost handler, and what is done there decides how everything ends. -/
theorem Run.arrives (h : Run β depth memory body trace m) (outer : HandlerCall)
    (huncaught : ∀ l ∈ layers, (l.resume (.panicked payload)).Only (.panicked payload))
    (hprogram : m.program? u =
      some (((climb β t n layers (.done (.panicked payload))).bind f).bind next))
    (hends : ∀ (w : World μ) deeds a, w.KeepsSettings deeds → Ends (f (.panicked payload)) deeds a →
      a = answer ∧ (w.unwinding t payload outer last).Sublist (deeds.filterMap Deed.step?))
    (hfree : free → Unhindered (·.BusesExtend m.world) (f (.panicked payload)) (· = answer)) :
    m.Arrives β depth u ((climb β t n layers (.done (.panicked payload))).bind f) answer
      (fun w deeds => w.Unwound t payload layers outer last deeds)
      (m.world.Unobstructed β t payload n layers ∧ free) := by
  have hanswers : ∀ later m' deeds a, m.Course β depth later m' → deeds <+: later.deedsOf u →
      Ends ((climb β t n layers (.done (.panicked payload))).bind f) deeds a →
      a = answer ∧ m'.world.Unwound t payload layers outer last deeds := by
    intro later m' deeds a hcourse hmine hall
    have hrun := h.course hcourse
    have hdone : ∀ deed ∈ deeds, (u, deed) ∈ later ++ trace := fun deed hdeed =>
      List.mem_append_left _ (Trace.mem_deedsOf.mp (hmine.subset hdeed))
    have hseen := hrun.keepsSettings hdone
    obtain ⟨r, climbing, ending, hclimbing, hending, rfl⟩ := ends_bind hall
    obtain ⟨rfl, htrail⟩ := ends_climb huncaught (hseen.of_subset (List.subset_append_left _ _)) hclimbing
    obtain ⟨rfl, hshown⟩ := hends _ _ _ (hseen.of_subset (List.subset_append_right _ _)) hending
    refine ⟨rfl, ?_, ?_⟩
    · rw [List.filterMap_append]
      exact htrail.append hshown
    · exact hrun.stopped_of_trail (fun deed hdeed => hdone deed (List.mem_append_left _ hdeed)) htrail
  refine ⟨hanswers, ?_⟩
  rintro ⟨hunobstructed, hlast⟩ later m' hcourse
  have hunhindered : Unhindered (·.BusesExtend m.world)
      ((climb β t n layers (.done (.panicked payload))).bind f) fun _ => True := by
    refine (unhindered_climb huncaught hunobstructed).bind ?_
    rintro _ rfl
    exact (hfree hlast).mono fun _ _ => trivial
  obtain ⟨more, m'', deeds, a, hmore, halone, hmine, hall⟩ := hcourse.exists_end_of_unhindered
    (fun _ _ hlater => hlater.busesExtend) hprogram hunhindered
  obtain ⟨rfl, -⟩ := hanswers _ m'' deeds a (hcourse.trans hmore) hmine hall
  exact ⟨more, m'', deeds, hmore, halone, hmine, hall⟩

end Runs

/-- How a panic goes through the posts that are nested in one another on a thread, if no handler on the
way catches it: to the client that made the outermost post, or to the end of a job. -/
structure PanicsThrough (β : Behaviour μ) (depth : Nat) (m : Machine μ α) : Prop where
  post : ∀ u t n layers payload (outer : PostCall) next,
    (∀ l ∈ layers, (l.resume (.panicked payload)).Only (.panicked payload)) →
    m.program? u = some ((outer.restOfPost (β.client (β.perform (n + layers.length) t)) t
      (climb β t n layers (.done (.panicked payload)))).bind next) →
    m.Arrives β depth u (outer.restOfPost (β.client (β.perform (n + layers.length) t)) t
        (climb β t n layers (.done (.panicked payload)))) (.panicked payload)
      (fun w deeds => w.Unwound t payload layers outer.toHandlerCall
          (.answered outer.invocation.post (.panicked payload)) deeds ∧
        ∃ object before behind, w.Stopped payload outer.invocation object before behind)
      (m.world.Unobstructed β t payload n layers ∧
        m.world.Attended (β.client (β.perform (n + layers.length) t)) outer.invocation.bus)
  job : ∀ u t n layers payload (outer : HandlerCall) next,
    (∀ l ∈ layers, (l.resume (.panicked payload)).Only (.panicked payload)) →
    m.program? u = some ((outer.restOfJob (β.client (β.perform (n + layers.length) t)) t
      (climb β t n layers (.done (.panicked payload)))).bind next) →
    m.Arrives β depth u (outer.restOfJob (β.client (β.perform (n + layers.length) t)) t
        (climb β t n layers (.done (.panicked payload)))) none
      (fun w deeds => w.Unwound t payload layers outer (.settled outer.invocation) deeds ∧
        ∃ object, w.account outer.invocation = .submitted outer.invocation ::
          (w.told ⟨outer.invocation, object, .panicked payload⟩ ++ [.settled outer.invocation]))
      (m.world.Unobstructed β t payload n layers ∧
        m.world.Attended (β.client (β.perform (n + layers.length) t)) outer.invocation.bus)

/-- A panic that no handler catches goes through all the posts in which it was raised, however deep they
are nested, on whatever buses and under whatever policies. The client that made the outermost post gets
the payload that was raised; the job of a delivery keeps the panic to itself and is settled. Before
either, each handler on the way has given back its lock and its failure has been reported, from the
innermost to the outermost, and none of the posts has called another handler. Whatever the order of turns,
the thread can come to this end by itself if neither observers nor the handlers on their way out hold it
up. -/
theorem panics_go_through_nested_posts {β : Behaviour μ} {depth : Nat} {memory : μ} {body : Body μ α}
    {trace : Trace μ} {m : Machine μ α} (h : Run β depth memory body trace m) :
    PanicsThrough β depth m := by
  constructor
  · intro u t n layers payload outer next huncaught hprogram
    rw [outer.restOfPost_eq_bind] at hprogram ⊢
    have harrives := h.arrives outer.toHandlerCall huncaught hprogram
      (fun _ _ _ hseen hends => outer.ends_panicked hseen hends) outer.unhindered_panicked
    refine ⟨fun later m' deeds outcome hcourse hmine hends => ?_, harrives.returns⟩
    obtain ⟨rfl, hunwound⟩ := harrives.ends later m' deeds outcome hcourse hmine hends
    refine ⟨rfl, hunwound, (h.course hcourse).stopped_of_unwinding (u := u) ?_
      ((List.sublist_append_right _ _).trans hunwound.in_order)⟩
    exact fun deed hdeed => List.mem_append_left _ (Trace.mem_deedsOf.mp (hmine.subset hdeed))
  · intro u t n layers payload outer next huncaught hprogram
    rw [outer.restOfJob_eq_bind] at hprogram ⊢
    have harrives := h.arrives outer huncaught hprogram
      (fun _ _ _ hseen hends => outer.ends_panicked hseen hends) outer.unhindered_panicked
    refine ⟨fun later m' deeds ended hcourse hmine hends => ?_, harrives.returns⟩
    obtain ⟨rfl, hunwound⟩ := harrives.ends later m' deeds ended hcourse hmine hends
    have hrun := h.course hcourse
    obtain ⟨hended, hsettled⟩ := hrun.ended_of_unwinding (u := u)
      (fun deed hdeed => List.mem_append_left _ (Trace.mem_deedsOf.mp (hmine.subset hdeed)))
      ((List.sublist_append_right _ _).trans hunwound.in_order)
    exact ⟨rfl, hunwound, hrun.account_of_panicked hended (hrun.protocol.1.mem_account hsettled rfl)⟩

namespace Fall

def tick : Event := ⟨⟨"Tick", "Tick", 0⟩, 0, ""⟩

def crew : Subscriber :=
  ⟨⟨"Crew", 0⟩, "crew", [⟨"pass", false, .one .root, ⟨1⟩⟩, ⟨"rest", true, .one .root, ⟨0⟩⟩]⟩

def cave : Subscriber := ⟨⟨"Cave", 0⟩, "cave", [⟨"fall", false, .one .root, ⟨3⟩⟩]⟩

def dock : Subscriber := ⟨⟨"Dock", 0⟩, "dock", [⟨"land", false, .one .root, ⟨2⟩⟩]⟩

def payload : Payload := .owned "deep"

/-- A handler lets the panic of its own post through. -/
def relayed : Outcome → Reaction
  | .panicked payload => .panicked payload
  | _ => .fine

def behaviour : Behaviour Unit where
  handle code _ :=
    if code.serial = 1 then .step (.post 1 tick) fun outcome => .done (relayed outcome)
    else if code.serial = 2 then .step (.post 0 tick) fun outcome => .done (relayed outcome)
    else if code.serial = 3 then .done (.panicked payload)
    else .done .fine
  observe _ _ := .done (some .other)
  work _ := .done none

def body : Body Unit Outcome :=
  .step (.openManual "yard" none (.rejected "yard" "full")) fun e =>
    .step (.openBus ⟨"front", .collect, [.custom "watch" "watch" ⟨0⟩]⟩ .publisher) fun front =>
    .step (.openBus ⟨"back", .propagate, [.custom "guard" "guard" ⟨1⟩]⟩ .publisher) fun back =>
    .step (.openBus ⟨"dock", .propagate, []⟩ (.executor e)) fun quay =>
    .step (.register front crew) fun _ => .step (.register back cave) fun _ =>
    .step (.register quay dock) fun _ => .step (.post front tick) fun outcome =>
    .step (.post quay tick) fun _ => .step (.runAt e 0) fun _ => .done outcome

/-- The machine after so many turns. -/
def after (turns : Nat) : Option (Trace Unit × Machine Unit Outcome) :=
  (Machine.start behaviour 4 () body).play behaviour 4 (List.replicate turns (.caller 0))

def call (post : PostId) (place : Nat) (b : BusId) (s : Subscriber) (method : String)
    (concurrent : Bool) (code : Nat) : HandlerCall :=
  ⟨⟨⟨post, place, b, ⟨⟨s.owner, place⟩, s.name, method, .root, concurrent, ⟨code⟩⟩, tick⟩,
    .cast tick.type .root ⟨.event, fun _ => trivial⟩⟩, ⟨0⟩⟩

def falling (post : PostId) : Layer Unit :=
  ⟨⟨call post 0 1 cave "fall" false 3, .propagate, [], []⟩, fun outcome => .done (relayed outcome)⟩

def passing (post : PostId) : Layer Unit :=
  ⟨⟨call post 0 0 crew "pass" false 1, .collect, [], [(call post 1 0 crew "rest" true 0).delivery]⟩,
    fun outcome => .done (relayed outcome)⟩

def landing : HandlerCall := call 2 0 2 dock "land" false 2

def postLeft : Proc Unit Outcome :=
  (passing 0).restOfPost (behaviour.client (behaviour.perform 3 .main)) .main
    (climb behaviour .main 2 [falling 1] (.done (.panicked payload)))

def jobLeft : Proc Unit (Option Payload) :=
  landing.restOfJob (behaviour.client (behaviour.perform 3 (.started 3))) (.started 3)
    (climb behaviour (.started 3) 1 [falling 5, passing 4] (.done (.panicked payload)))

theorem program_postLeft : (after 40).bind (fun run => run.2.program? (.caller 0)) =
    some ((postLeft.bind fun outcome => (Program.step (.post 2 tick) fun _ => .step (.runAt 0 0) fun _ =>
      .done outcome : Body Unit Outcome).expand (behaviour.perform 4 .main)).silently) := rfl

theorem program_jobLeft : (after 97).bind (fun run => run.2.program? (.caller 0)) =
    some (((jobLeft.bind fun _ => .done ()).bind
      fun _ => .done (.panicked payload) : Proc Unit Outcome).silently) := rfl

theorem uncaught {layers : List (Layer Unit)}
    (h : ∀ l ∈ layers, l.resume = fun outcome => .done (relayed outcome)) :
    ∀ l ∈ layers, (l.resume (.panicked payload)).Only (.panicked payload) := by
  intro l hl
  rw [h l hl]
  rfl

theorem attended {w : World Unit} (h : w.buses.length = 3) (n : Nat) (t : Thread) {b : BusId}
    (hb : b < 3) : w.Attended (behaviour.client (behaviour.perform n t)) b :=
  ⟨h ▸ hb, fun _ _ _ _ _ => trivial⟩

end Fall

open Fall in
/-- The only handler of the cave panics. One of the two handlers of the crew posts to the cave, and the
handler of the dock, whose deliveries are jobs, posts to the crew. All observers panic, too. The client
posts to the crew and gets the payload; later it has the job of a post to the dock run, which ends. -/
theorem panics_go_through_nested_posts_to_client_and_job :
    (∃ trace m next, Run behaviour 4 () body trace m ∧
      m.program? (.caller 0) = some (postLeft.bind next) ∧
      ∃ later m' deeds, m.Course behaviour 4 later m' ∧ Ends postLeft deeds (.panicked payload) ∧
        m'.world.Unwound .main payload [falling 1] (passing 0).toHandlerCall
          (.answered 0 (.panicked payload)) deeds) ∧
    ∃ trace m next, Run behaviour 4 () body trace m ∧
      m.program? (.caller 0) = some (jobLeft.bind next) ∧
      ∃ later m' deeds, m.Course behaviour 4 later m' ∧ Ends jobLeft deeds none ∧
        m'.world.Unwound (.started 3) payload [falling 5, passing 4] landing
          (.settled landing.invocation) deeds := by
  constructor
  · have hseen : (after 40).any (fun run => run.2.world.buses.length = 3) = true := by decide +kernel
    obtain ⟨⟨trace, m⟩, hplay, hbuses⟩ := (Option.any_eq_true ..).mp hseen
    have hopen : m.world.buses.length = 3 := of_decide_eq_true hbuses
    have hrun := Run.of_play hplay
    have hmoment := program_postLeft
    rw [hplay, Option.bind_some, silently, Program.bind_assoc] at hmoment
    have harrives := (panics_go_through_nested_posts hrun).post (.caller 0) .main 2 [falling 1] payload
      (passing 0).toPostCall _ (uncaught (by simp [falling])) hmoment
    obtain ⟨later, m', deeds, hlater, -, hmine, hends⟩ := harrives.returns
      ⟨⟨attended hopen 2 .main (by decide), trivial, trivial⟩, attended hopen 3 .main (by decide)⟩
        [] m .now
    rw [List.append_nil] at hmine
    exact ⟨trace, m, _, hrun, hmoment, later, m', deeds, hlater, hends,
      (harrives.ends later m' deeds _ hlater hmine hends).2.1⟩
  · have hseen : (after 97).any (fun run => run.2.world.buses.length = 3) = true := by decide +kernel
    obtain ⟨⟨trace, m⟩, hplay, hbuses⟩ := (Option.any_eq_true ..).mp hseen
    have hopen : m.world.buses.length = 3 := of_decide_eq_true hbuses
    have hrun := Run.of_play hplay
    have hmoment := program_jobLeft
    rw [hplay, Option.bind_some, silently, Program.bind_assoc, Program.bind_assoc] at hmoment
    have harrives := (panics_go_through_nested_posts hrun).job (.caller 0) (.started 3) 1
      [falling 5, passing 4] payload landing _ (uncaught (by simp [falling, passing])) hmoment
    obtain ⟨later, m', deeds, hlater, -, hmine, hends⟩ := harrives.returns
      ⟨⟨attended hopen 1 (.started 3) (by decide), trivial, attended hopen 2 (.started 3) (by decide),
        trivial, trivial⟩, attended hopen 3 (.started 3) (by decide)⟩ [] m .now
    rw [List.append_nil] at hmine
    exact ⟨trace, m, _, hrun, hmoment, later, m', deeds, hlater, hends,
      (harrives.ends later m' deeds _ hlater hmine hends).2.1⟩

end PubSub
