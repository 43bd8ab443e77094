import PubSub.Proofs.Reports
import PubSub.Proofs.Tours
import PubSub.Proofs.Unwinding

/-!
# Panics on their way out

A panic that no handler catches goes through all posts in which the handler was called. Each of these
posts gives back the lock of its handler, tells the observers of its bus, runs no other handler and hands
the panic on to whoever made the post. The job of a delivery keeps it to itself.
-/
namespace PubSub

open Program Proc

variable {μ α γ : Type}

/-- The settings that a thread has read are those that the buses have. -/
def World.KeepsSettings (w : World μ) (deeds : List (Deed μ)) : Prop :=
  ∀ b bus, .step (.readBus b) bus ∈ deeds → bus.settings = (w.bus b).settings

/-- What a thread does with a handler that has ended in a panic: it writes that down, gives back the lock,
hands the failure to the observers one after another, and writes down how it goes on. -/
def World.unwinding (w : World μ) (t : Thread) (payload : Payload) (c : HandlerCall) (last : Occurrence) :
    List (Step μ) :=
  .record t (.ended c.invocation (.panicked payload)) :: (c.unlockingSteps ++
    ((w.reports c.invocation (.panicked payload.message)).map (.record t) ++ [.record t last]))

section Deeds

variable {w : World μ} {client : Client μ} {t : Thread} {deeds more : List (Deed μ)} {i : Invocation}
  {payload : Payload}

theorem World.KeepsSettings.of_subset (h : w.KeepsSettings more) (hsubset : deeds ⊆ more) :
    w.KeepsSettings deeds :=
  fun b bus hread => h b bus (hsubset hread)

theorem ends_forEach {A : Type} {items : List A} {f : A → Proc μ Unit} {shown : A → Step μ}
    (hf : ∀ a deeds, Ends (f a) deeds () → [shown a].Sublist (deeds.filterMap Deed.step?))
    (h : Ends (forEach items f) deeds ()) :
    (items.map shown).Sublist (deeds.filterMap Deed.step?) := by
  induction items generalizing deeds with
  | nil => exact List.nil_sublist _
  | cons a items ih =>
    obtain ⟨_, first, rest, hfirst, hrest, rfl⟩ := ends_bind h
    rw [List.filterMap_append, List.map_cons, ← List.singleton_append]
    exact (hf a first hfirst).append (ih hrest)

/-- Whatever the observers do, all of them are told, one after another. -/
theorem ends_tellAll {cause : Cause} {failure : Failure} (hseen : w.KeepsSettings deeds)
    (h : Ends (tellAll client t i cause) deeds failure) :
    failure = w.failure i cause ∧
      ((w.reports i cause).map (Step.record t)).Sublist (deeds.filterMap Deed.step?) := by
  obtain ⟨bus, deeds, rfl, htelling⟩ := ends_ask_bind h
  obtain ⟨_, telling, last, heach, hlast, rfl⟩ := ends_bind htelling
  obtain ⟨rfl, rfl⟩ := ends_done hlast
  have hsettings := hseen _ bus List.mem_cons_self
  have hobservers : bus.observers = (w.bus i.bus).observers := by
    rw [Bus.observers, Bus.observers, hsettings]
  refine ⟨congrArg (fun settings => i.failure settings.identifier cause) hsettings, ?_⟩
  rw [World.reports, ← hobservers, ← hsettings, List.map_map, List.append_nil]
  refine .cons _ (ends_forEach ?_ heach)
  intro entry deeds htold
  obtain ⟨_, rest, rfl, -⟩ := ends_ask_bind htold
  exact .cons_cons _ (List.nil_sublist _)

/-- The lock is given back before anybody hears of the panic. -/
theorem HandlerCall.ends_rest_bind {c : HandlerCall} {f : Reaction → Proc μ γ} {a : γ}
    {shown : List (Step μ)} (h : Ends ((c.rest t (.done (.panicked payload))).bind f) deeds a)
    (hf : ∀ later, later ⊆ deeds → Ends (f (.panicked payload)) later a →
      shown.Sublist (later.filterMap Deed.step?)) :
    (.record t (.ended c.invocation (.panicked payload)) :: (c.unlockingSteps ++ shown)).Sublist
      (deeds.filterMap Deed.step?) := by
  obtain ⟨r, first, later, hfirst, hlater, rfl⟩ := ends_bind h
  obtain ⟨rfl, hshown⟩ := c.ends_rest hfirst
  rw [List.filterMap_append, ← List.cons_append]
  exact hshown.append (hf later (List.subset_append_right _ _) hlater)

/-- A post whose handler has panicked ends in this panic, too. -/
theorem PostCall.ends_panicked {p : PostCall} {outcome : Outcome} (hseen : w.KeepsSettings deeds)
    (h : Ends (p.restOfPost client t (.done (.panicked payload))) deeds outcome) :
    outcome = .panicked payload ∧
      (w.unwinding t payload p.toHandlerCall (.answered p.invocation.post (.panicked payload))).Sublist
        (deeds.filterMap Deed.step?) := by
  rw [restOfPost, bind_assoc] at h
  have hsame : outcome = .panicked payload := by
    obtain ⟨r, _, _, hfirst, hlater, -⟩ := ends_bind h
    obtain ⟨rfl, -⟩ := p.ends_rest hfirst
    obtain ⟨_, _, _, htold, hanswer, -⟩ := ends_bind hlater
    obtain ⟨_, _, _, -, hlast, -⟩ := ends_bind htold
    obtain ⟨-, rfl⟩ := ends_done hlast
    obtain ⟨_, _, -, hdone⟩ := ends_ask_bind hanswer
    exact (ends_done hdone).2
  subst hsame
  refine ⟨rfl, p.ends_rest_bind h fun later hsubset hlater => ?_⟩
  obtain ⟨_, telling, last, htelling, hlast, rfl⟩ := ends_bind hlater
  obtain ⟨_, told, done, htold, hdone, rfl⟩ := ends_bind htelling
  obtain ⟨rfl, rfl⟩ := ends_done hdone
  obtain ⟨_, last, rfl, hend⟩ := ends_ask_bind hlast
  obtain ⟨rfl, -⟩ := ends_done hend
  rw [List.append_nil] at hsubset ⊢
  rw [List.filterMap_append]
  exact (ends_tellAll (hseen.of_subset (List.append_subset.mp hsubset).1) htold).2.append (.refl _)

/-- The job of a delivery ends as if nothing had happened. -/
theorem HandlerCall.ends_panicked {c : HandlerCall} {ended : Option Payload}
    (hseen : w.KeepsSettings deeds)
    (h : Ends (c.restOfJob client t (.done (.panicked payload))) deeds ended) :
    ended = none ∧
      (w.unwinding t payload c (.settled c.invocation)).Sublist (deeds.filterMap Deed.step?) := by
  have hsame : ended = none := by
    obtain ⟨r, _, _, hfirst, hlater, -⟩ := ends_bind h
    obtain ⟨rfl, -⟩ := c.ends_rest hfirst
    obtain ⟨_, _, _, -, hlast, -⟩ := ends_bind hlater
    obtain ⟨_, _, -, hdone⟩ := ends_ask_bind hlast
    exact (ends_done hdone).2
  subst hsame
  refine ⟨rfl, c.ends_rest_bind h fun later hsubset hlater => ?_⟩
  obtain ⟨_, told, last, htold, hlast, rfl⟩ := ends_bind hlater
  obtain ⟨_, last, rfl, hend⟩ := ends_ask_bind hlast
  obtain ⟨rfl, -⟩ := ends_done hend
  rw [List.filterMap_append]
  exact (ends_tellAll (hseen.of_subset (List.append_subset.mp hsubset).1) htold).2.append (.refl _)

/-- What the panic leaves behind in posts that are nested in one another. -/
def World.trail (w : World μ) (t : Thread) (payload : Payload) (layers : List (Layer μ)) :
    List (Step μ) :=
  layers.flatMap fun l =>
    w.unwinding t payload l.toHandlerCall (.answered l.invocation.post (.panicked payload))

/-- Through all posts that are nested in one another, no matter how many, the same panic goes on. -/
theorem ends_climb {β : Behaviour μ} {n : Nat} {layers : List (Layer μ)} {r : Reaction}
    (huncaught : ∀ l ∈ layers, (l.resume (.panicked payload)).Only (.panicked payload))
    (hseen : w.KeepsSettings deeds) (h : Ends (climb β t n layers (.done (.panicked payload))) deeds r) :
    r = .panicked payload ∧ (w.trail t payload layers).Sublist (deeds.filterMap Deed.step?) := by
  induction layers generalizing n deeds with
  | nil =>
    obtain ⟨rfl, rfl⟩ := ends_done h
    exact ⟨rfl, .refl _⟩
  | cons l layers ih =>
    obtain ⟨hl, hlayers⟩ := List.forall_mem_cons.mp huncaught
    rw [climb, climb_eq_bind, bind_assoc] at h
    obtain ⟨outcome, own, rest, hown, hrest, rfl⟩ := ends_bind h
    obtain ⟨r', resuming, above, hresuming, habove, rfl⟩ := ends_bind hrest
    obtain ⟨rfl, hshown⟩ := l.ends_panicked (hseen.of_subset (List.subset_append_left _ _)) hown
    obtain rfl := hl.of_ends hresuming
    have hlater : above ⊆ own ++ (resuming ++ above) := fun deed hdeed =>
      List.mem_append_right _ (List.mem_append_right _ hdeed)
    obtain ⟨rfl, htrail⟩ := ih hlayers (hseen.of_subset hlater) habove
    refine ⟨rfl, ?_⟩
    rw [List.filterMap_append, List.filterMap_append]
    exact hshown.append (htrail.trans (List.sublist_append_right _ _))

end Deeds

/-- A handler that ended in a panic has stopped its post: the observers of its bus have been told once,
the handlers before it have run, and those behind it have not. -/
structure World.Stopped (w : World μ) (payload : Payload) (i : Invocation) (object : Object)
    (before : List Performance) (behind : List Invocation) : Prop where
  selection : IsSelection i.post (before.map Performance.invocation ++ i :: behind)
  story : w.story i.post = .selected i.post (before.map Performance.invocation ++ i :: behind) ::
    (before.flatMap w.told ++ (w.told ⟨i, object, .panicked payload⟩ ++
      [.answered i.post (.panicked payload)]))
  account : w.account i = w.told ⟨i, object, .panicked payload⟩
  spared : ∀ j ∈ behind, w.account j = []

theorem World.Dispatch.ran_of_panicked {w : World μ} {policy : ErrorPolicy} {matched : List Invocation}
    {ran : List Performance} {outcome : Outcome} {x : Performance} {payload : Payload}
    (h : w.Dispatch policy [] matched ran outcome) (hx : x ∈ ran)
    (hpanicked : x.reaction = .panicked payload) :
    ∃ before behind, ran = before ++ [x] ∧
      matched = before.map Performance.invocation ++ x.invocation :: behind := by
  have hne : ran ≠ [] := List.ne_nil_of_mem hx
  have hlast : x = ran.getLast hne := by
    rw [← List.dropLast_append_getLast hne] at hx
    rcases List.mem_append.mp hx with hx | hx
    · have hgoes := h.goes_on x hx
      rw [hpanicked] at hgoes
      cases policy <;> cases hgoes
    · exact List.mem_singleton.mp hx
  obtain ⟨behind, hmatched⟩ := h.in_order
  refine ⟨ran.dropLast, behind, hlast ▸ (List.dropLast_append_getLast hne).symm, ?_⟩
  rw [← hmatched, ← List.dropLast_append_getLast hne, ← hlast]
  simp

/-- A post selects a handler only once, so what it tells of one handler is all that happens to it. -/
theorem World.stopped_of_story {w : World μ} {payload : Payload} {i : Invocation} {object : Object}
    {before : List Performance} {behind : List Invocation}
    (hselection : IsSelection i.post (before.map Performance.invocation ++ i :: behind))
    (hstory : w.story i.post = .selected i.post (before.map Performance.invocation ++ i :: behind) ::
      (before.flatMap w.told ++ (w.told ⟨i, object, .panicked payload⟩ ++
        [.answered i.post (.panicked payload)]))) :
    w.Stopped payload i object before behind := by
  have haccount : ∀ j, j.post = i.post → j ∉ before.map Performance.invocation →
      w.account j = (w.told ⟨i, object, .panicked payload⟩).filter (·.invocation? = some j) := by
    intro j hj hnew
    have hnone := w.filter_told_eq_nil hnew
    simp only [World.account_eq, hj, hstory, List.filter_cons, List.filter_append, hnone]
    simp [Occurrence.invocation?]
  have hnodup : (before.map Performance.invocation ++ i :: behind).Nodup := by
    obtain ⟨b, event, found, hmatched⟩ := hselection
    exact hmatched ▸ Outlook.nodup_deliveries
  obtain ⟨-, hbehind, hapart⟩ := List.nodup_append.mp hnodup
  refine ⟨hselection, hstory, ?_, fun j hj => ?_⟩
  · rw [haccount i rfl fun hi => hapart i hi i List.mem_cons_self rfl]
    exact w.filter_told_self ⟨i, object, .panicked payload⟩
  · have hpost : j.post = i.post := by
      obtain ⟨b, event, found, hmatched⟩ := hselection
      have hmem : j ∈ (deliveries i.post b event found).map Delivery.invocation :=
        hmatched ▸ List.mem_append_right _ (List.mem_cons_of_mem _ hj)
      exact (Activities.bus_deliveries j hmem).1
    have hother : j ∉ [Performance.mk i object (.panicked payload)].map Performance.invocation := by
      rintro (_ | ⟨_, hnone⟩)
      · exact (List.nodup_cons.mp hbehind).1 hj
      · cases hnone
    have hnone := w.filter_told_eq_nil hother
    rw [List.flatMap_singleton] at hnone
    rw [haccount j hpost fun hmem => hapart j hmem j (List.mem_cons_of_mem _ hj) rfl, hnone]

section Runs

variable {β : Behaviour μ} {depth : Nat} {memory : μ} {body : Body μ α} {trace : Trace μ}
  {m : Machine μ α} {i : Invocation} {payload : Payload}

/-- What a handler has brought about, and its post, if it ended in a panic. -/
theorem Run.exists_stopped (h : Run β depth memory body trace m)
    (hended : .ended i (.panicked payload) ∈ m.world.account i)
    (hanswered : .answered i.post (.panicked payload) ∈ m.world.story i.post) :
    ∃ object before behind, m.world.Stopped payload i object before behind := by
  rcases h.exists_performance hended hanswered with
    ⟨matched, ran, ⟨j, object, r⟩, hselection, hstory, hx, rfl, hpanicked, hdispatch⟩ | ⟨-, hcalm⟩
  · obtain ⟨before, behind, rfl, rfl⟩ := hdispatch.ran_of_panicked hx hpanicked
    cases hpanicked
    rw [List.flatMap_append, List.flatMap_singleton, List.append_assoc] at hstory
    exact ⟨object, before, behind, World.stopped_of_story hselection hstory⟩
  · exact absurd rfl (hcalm payload)

/-- What is settled has been run or lost. -/
theorem Run.over_of_mem_account (h : Run β depth memory body trace m)
    (hsettled : .settled i ∈ m.world.account i) :
    Fate.run.Meets trace m i ∨ Fate.lost.Meets trace m i := by
  obtain ⟨p, hp⟩ := (Outlook.located h.protocol.1 i).somewhere
  have hmention : Place.settled ∈ placesOf i (m.world.mentions i) := by
    refine List.mem_map.mpr ⟨(i, .settled), List.mem_filter.mpr ⟨?_, decide_eq_true rfl⟩, rfl⟩
    refine List.mem_append_right _ (List.mem_flatMap.mpr ⟨_, hsettled, ?_⟩)
    exact List.mem_singleton_self _
  have hplace : Place.settled ∈ p.toList := hp.place ▸ List.mem_append_right _ hmention
  rw [Option.mem_toList] at hplace
  cases hplace
  exact h.over_of_settled hp

/-- What the job of a delivery has brought about, if the handler ended in a panic. -/
theorem Run.account_of_panicked (h : Run β depth memory body trace m)
    (hended : .ended i (.panicked payload) ∈ m.world.account i)
    (hsettled : .settled i ∈ m.world.account i) :
    ∃ object, m.world.account i =
      .submitted i :: (m.world.told ⟨i, object, .panicked payload⟩ ++ [.settled i]) := by
  rcases h.over_of_mem_account hsettled with ⟨-, -, object, r, -, haccount⟩ | ⟨-, executor, haccount⟩
  · have hrun : m.world.account i = .submitted i :: (m.world.told ⟨i, object, r⟩ ++ [.settled i]) :=
      haccount
    rw [hrun] at hended
    rcases List.mem_cons.mp hended with heq | hmem
    · cases heq
    rcases List.mem_append.mp hmem with hmem | hmem
    · obtain ⟨-, hr⟩ := World.eq_of_ended_mem_told hmem
      cases hr
      exact ⟨object, hrun⟩
    · cases List.mem_singleton.mp hmem
  · rw [haccount] at hended
    rcases List.mem_cons.mp hended with heq | hmem
    · cases heq
    rcases List.mem_cons.mp hmem with heq | hmem
    · cases heq
    rcases List.mem_append.mp hmem with hmem | hmem
    · obtain ⟨_, -, heq⟩ := List.mem_map.mp hmem
      cases heq
    · cases List.mem_singleton.mp hmem

end Runs

end PubSub
