import PubSub.Proofs.Whereabouts

/-!
# Evidence

Where an invocation is can be told from the outside: a thread that has it in hand has taken it, has
submitted it or has dropped it, and executors store as many jobs of it as there should be. A thread
that has something in hand has something left to do.
-/
namespace PubSub

variable {μ α : Type}

/-- What a thread must have done if an invocation is in a place where it has it in hand. -/
def Trace.Shows (trace : Trace μ) (t : Turn) (i : Invocation) : Place → Prop
  | .held true _ => ∃ deed, (t, deed) ∈ trace ∧ deed.taken? = some i
  | .held false .offered => ∃ name, (t, .step (.record name (.submitted i)) ()) ∈ trace
  | .held false (.lost executor _) =>
    ∃ name, (t, .step (.record name (.dropped i executor)) ()) ∈ trace
  | _ => True

namespace Trace

variable {trace : Trace μ} {t : Turn} {i : Invocation} {p : Place}

theorem Shows.cons (h : trace.Shows t i p) (entry : Turn × Deed μ) :
    Trace.Shows (entry :: trace) t i p := by
  unfold Shows at h ⊢
  split at h
  · obtain ⟨deed, hmem, htaken⟩ := h
    exact ⟨deed, List.mem_cons_of_mem _ hmem, htaken⟩
  · obtain ⟨name, hmem⟩ := h
    exact ⟨name, List.mem_cons_of_mem _ hmem⟩
  · obtain ⟨name, hmem⟩ := h
    exact ⟨name, List.mem_cons_of_mem _ hmem⟩
  · trivial

/-- A job stays a job. -/
theorem Shows.of_job {phase phase' : Phase} (h : trace.Shows t i (.held true phase)) :
    trace.Shows t i (.held true phase') := h

end Trace

theorem Deed.stored_of_mem_lost {deed : Deed μ} {m : Invocation × Place} (h : m ∈ deed.lost) :
    m.2 = .stored := by
  have hjob : ∀ job : Job, m ∈ job.mentions → m.2 = .stored := by
    intro job hm
    cases job with
    | delivery d executor => rw [List.mem_singleton.mp hm]
    | work label body => cases hm
  cases deed with
  | step s reply =>
    obtain ⟨job, -, hm⟩ := List.mem_flatMap.mp h
    exact hjob job hm
  | took job => exact hjob job h
  | woke => cases h

section Moving

variable {O : Outlook} {trace : Trace μ} {t : Turn}

theorem Outlook.Turns.shows {deed : Deed μ} {i : Invocation} {p p' : Place}
    (h : O.Turns i deed p p') (hp : trace.Shows t i p) :
    Trace.Shows ((t, deed) :: trace) t i p' := by
  cases h with
  | submit => exact ⟨_, List.mem_cons_self⟩
  | refuse => exact ⟨_, List.mem_cons_self⟩
  | take taken => exact ⟨_, List.mem_cons_self, taken⟩
  | drop => exact hp.of_job.cons _
  | @call _ _ job =>
    cases job with
    | true => exact hp.of_job.cons _
    | false => trivial
  | @finish _ _ job =>
    cases job with
    | true => exact hp.of_job.cons _
    | false => trivial
  | @report _ job phase _ _ cause =>
    cases job with
    | true => exact hp.of_job.cons _
    | false =>
      cases phase with
      | lost => exact hp.cons _
      | offered => cases cause
      | _ => trivial
  | _ => trivial

theorem Outlook.Shift.shows {g g' : Standing} {deed : Deed μ} (h : O.Shift g g' deed)
    (hold : ∀ m ∈ g.mentions, trace.Shows t m.1 m.2) :
    ∀ m ∈ g'.mentions, Trace.Shows ((t, deed) :: trace) t m.1 m.2 := by
  have hnext : ∀ m ∈ g.mentions, Trace.Shows ((t, deed) :: trace) t m.1 m.2 := fun m hm =>
    (hold m hm).cons _
  cases h with
  | serial _ mentions => rwa [mentions]
  | select _ _ _ _ mentions =>
    rw [mentions, List.forall_mem_append]
    refine ⟨?_, hnext⟩
    intro m hm
    obtain ⟨i, -, rfl⟩ := List.mem_map.mp hm
    trivial
  | @change _ before after common _ was is changes =>
    have hwas : ∀ m ∈ before ++ common, trace.Shows t m.1 m.2 := by
      intro m hm
      rcases List.mem_append.mp (was.mem_iff.mpr hm) with hm | hm
      · exact hold m hm
      · rw [Deed.stored_of_mem_lost hm]
        trivial
    obtain ⟨hbefore, hcommon⟩ := List.forall_mem_append.mp hwas
    intro m hm
    rcases List.mem_append.mp (is.mem_iff.mp (List.mem_append_left _ hm)) with hm | hm
    · cases changes with
      | idle => cases hm
      | turns loose turns =>
        rw [List.mem_singleton.mp hm]
        exact turns.shows (hbefore _ List.mem_cons_self)
    · exact (hcommon m hm).cons _

theorem Moving.shows (h : Moving O trace) (t : Turn) :
    ∀ m ∈ (O.protocol.standing trace t).mentions, trace.Shows t m.1 m.2 := by
  refine h.stands (P := fun t trace g => ∀ m ∈ g.mentions, trace.Shows t m.1 m.2) ?_ ?_ ?_ t
  · intro t
    rw [Standing.mentions, Outlook.stack_base]
    exact List.forall_mem_nil _
  · exact fun t trace g g' deed hold moves backed => (moves.shift backed).shows hold
  · exact fun t u trace g deed _ hold m hm => (hold m hm).cons _

end Moving

/-- The thread has something left to do. -/
def Machine.IsAtWork (m : Machine μ α) (t : Turn) : Prop :=
  ∃ p, m.program? t = some p ∧ p ≠ .done ()

theorem Outlook.isAtWork_of_stack {O : Outlook} {trace : Trace μ} {m : Machine μ α} {t : Turn}
    (h : O.protocol.Orderly trace m t) (hstack : (O.protocol.standing trace t).stack ≠ []) :
    m.IsAtWork t := by
  cases hp : m.program? t with
  | none => exact absurd (h.of_none hp).1 hstack
  | some p =>
    refine ⟨p, hp, ?_⟩
    rintro rfl
    exact hstack (h.of_some hp).1

/-- The history in full, as far as one invocation goes. -/
theorem Conduct.Lawful.account {O : Outlook} {trace : Trace μ} {w : World μ}
    (h : O.protocol.Lawful trace w) (i : Invocation) :
    w.account i = trace.reverse.flatMap fun entry => Outlook.said i entry.2 := by
  induction h with
  | start memory => rfl
  | step _ _ world ih =>
    rw [(Deed.does_step world).account, ih, List.reverse_cons, List.flatMap_append,
      List.flatMap_singleton]
  | took _ _ jobs world ih =>
    rw [(Deed.does_took jobs world).account, ih, List.reverse_cons, List.flatMap_append,
      List.flatMap_singleton]
  | woke _ _ _ world ih =>
    rw [(Deed.does_woke world).account, ih, List.reverse_cons, List.flatMap_append,
      List.flatMap_singleton]
  | rested _ world ih => rw [Deed.account_of_history_eq world.history, ih]

theorem Conduct.Lawful.mem_account {O : Outlook} {trace : Trace μ} {w : World μ}
    (h : O.protocol.Lawful trace w) {t : Turn} {name : Thread} {o : Occurrence} {i : Invocation}
    (hmem : (t, .step (.record name o) ()) ∈ trace) (ho : o.invocation? = some i) :
    o ∈ w.account i := by
  rw [h.account]
  refine List.mem_flatMap.mpr ⟨_, List.mem_reverse.mpr hmem, ?_⟩
  rw [Outlook.said_record name ho]
  exact List.mem_singleton_self o

def Job.isOf (i : Invocation) : Job → Bool
  | .delivery d _ => d.invocation = i
  | .work _ _ => false

def Place.isStored : Place → Bool
  | .stored => true
  | _ => false

theorem countP_jobs (i : Invocation) (jobs : List Job) :
    (placesOf i (jobs.flatMap Job.mentions)).countP Place.isStored = jobs.countP (Job.isOf i) := by
  induction jobs with
  | nil => rfl
  | cons job rest ih =>
    rw [List.flatMap_cons, placesOf_append, List.countP_append, ih, List.countP_cons, Nat.add_comm]
    congr 1
    cases job with
    | delivery d executor =>
      by_cases hd : d.invocation = i
      · simp [Job.mentions, Job.isOf, placesOf, Place.isStored, hd]
      · simp [Job.mentions, Job.isOf, placesOf, hd]
    | work label body => rfl

theorem Standing.unstored_of_mem_mentions {g : Standing} {m : Invocation × Place}
    (h : m ∈ g.mentions) : m.2.isStored = false := by
  obtain ⟨f, -, hm⟩ := List.mem_flatMap.mp h
  cases f with
  | post id hand todo =>
    rcases List.mem_append.mp hm with hm | hm
    · obtain ⟨_, -, rfl⟩ := Option.map_eq_some_iff.mp (Option.mem_toList.mp hm)
      rfl
    · obtain ⟨_, -, rfl⟩ := List.mem_map.mp hm
      rfl
  | job hand =>
    rw [List.mem_singleton.mp hm]
    rfl

theorem Standing.unstored_of_mem_places {g : Standing} {i : Invocation} {p : Place}
    (h : p ∈ g.places i) : p.isStored = false := by
  rcases List.mem_append.mp h with hp | hp
  · rw [List.eq_of_mem_replicate hp]
    rfl
  · exact unstored_of_mem_mentions (mem_of_mem_placesOf hp)

namespace Outlook

variable {O : Outlook} {trace : Trace μ} {w : World μ} {i : Invocation}

theorem settled_of_mem_account {o : List Occurrence} {m : Invocation × Place}
    (h : m ∈ o.flatMap Occurrence.mentions) : m.2 = .settled := by
  obtain ⟨o, -, hm⟩ := List.mem_flatMap.mp h
  cases o with
  | settled j => rw [List.mem_singleton.mp hm]
  | _ => cases hm

/-- Executors store what is in store. -/
theorem countP_isOf (O : Outlook) (trace : Trace μ) (w : World μ) (i : Invocation) :
    w.jobs.countP (Job.isOf i) = (O.places trace w i).countP Place.isStored := by
  have hthreads : ((O.protocol.roll trace).gather (Standing.places i)).countP Place.isStored = 0 := by
    refine List.countP_eq_zero.mpr ?_
    intro p hp
    obtain ⟨⟨t, g⟩, -, hg⟩ := List.mem_flatMap.mp hp
    rw [Standing.unstored_of_mem_places hg]
    exact nofun
  have haccount : (placesOf i ((w.account i).flatMap Occurrence.mentions)).countP Place.isStored =
      0 := by
    refine List.countP_eq_zero.mpr ?_
    intro p hp
    have hsettled := settled_of_mem_account (mem_of_mem_placesOf hp)
    rw [show p = .settled from hsettled]
    exact nofun
  rw [places, World.mentions, placesOf_append, List.countP_append, List.countP_append, hthreads,
    haccount, countP_jobs, Nat.zero_add, Nat.add_zero]

/-- Some thread has in hand what is in hand. -/
theorem exists_mention {job : Bool} {phase : Phase} (h : .held job phase ∈ O.places trace w i) :
    ∃ t, (i, .held job phase) ∈ (O.protocol.standing trace t).mentions := by
  rcases List.mem_append.mp h with hthreads | hworld
  · have hthread : ∃ t, Place.held job phase ∈ Standing.places i (O.protocol.standing trace t) :=
      Roll.exists_of_mem_gather (O.protocol.nodup_roll trace) hthreads
    obtain ⟨t, ht⟩ := hthread
    refine ⟨t, ?_⟩
    rcases List.mem_append.mp ht with hfresh | hmention
    · cases List.eq_of_mem_replicate hfresh
    · exact mem_of_mem_placesOf hmention
  · rcases List.mem_append.mp (mem_of_mem_placesOf hworld) with hjobs | haccount
    · obtain ⟨job', -, hm⟩ := List.mem_flatMap.mp hjobs
      cases job' with
      | delivery d executor => cases List.mem_singleton.mp hm
      | work label body => cases hm
    · cases settled_of_mem_account haccount

end Outlook

end PubSub
