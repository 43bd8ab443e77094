import PubSub.Proofs.Posts

/-!
# Failures and reports

When nobody has anything left to do, every failure of a handler and every loss of a delivery has been
handed to each observer of its bus once, and nothing else has. This is first said of each invocation by
itself; then all invocations are counted together.
-/
namespace PubSub

open Activities

variable {μ α : Type}

/-- What has happened to an invocation that nobody deals with any more. -/
inductive World.Reckoned (w : World μ) (i : Invocation) : List Occurrence → Prop where
  | untouched : Reckoned w i []
  | waiting : Reckoned w i [.submitted i]
  | invoked (object : Object) (r : Reaction) : Reckoned w i (w.told ⟨i, object, r⟩)
  | run (object : Object) (r : Reaction) :
      Reckoned w i (.submitted i :: (w.told ⟨i, object, r⟩ ++ [.settled i]))
  | lost (executor : String) :
      Reckoned w i (.submitted i :: .dropped i executor ::
        (w.reports i (.abandoned executor) ++ [.settled i]))

/-- What is told of some handlers is about their invocations. -/
theorem World.filter_told_eq_nil (w : World μ) {ran : List Performance} {i : Invocation}
    (h : i ∉ ran.map Performance.invocation) :
    (ran.flatMap w.told).filter (·.invocation? = some i) = [] := by
  refine List.filter_eq_nil_iff.mpr fun o ho => ?_
  obtain ⟨x, hx, ho⟩ := List.mem_flatMap.mp ho
  rw [invocation?_of_mem_told ho, decide_eq_true_iff]
  rintro ⟨⟩
  exact h (List.mem_map_of_mem hx)

theorem World.filter_told_self (w : World μ) (x : Performance) :
    (w.told x).filter (·.invocation? = some x.invocation) = w.told x :=
  List.filter_eq_self.mpr fun _ ho => decide_eq_true (invocation?_of_mem_told ho)

/-- A post on the publisher's thread deals with an invocation once or not at all. -/
theorem World.reckoned_of_nodup (w : World μ) {ran : List Performance}
    (h : (ran.map Performance.invocation).Nodup) (i : Invocation) :
    w.Reckoned i ((ran.flatMap w.told).filter (·.invocation? = some i)) := by
  induction ran with
  | nil => exact .untouched
  | cons x ran ih =>
    obtain ⟨hnew, hrest⟩ := List.nodup_cons.mp h
    rw [List.flatMap_cons, List.filter_append]
    by_cases hx : x.invocation = i
    · subst hx
      rw [w.filter_told_self, w.filter_told_eq_nil hnew, List.append_nil]
      exact .invoked x.object x.reaction
    · have hother : i ∉ [x].map Performance.invocation := fun hi => hx (List.mem_singleton.mp hi).symm
      have hskip := w.filter_told_eq_nil hother
      rw [List.flatMap_singleton] at hskip
      rw [hskip, List.nil_append]
      exact ih hrest

theorem World.eq_of_ended_mem_told {w : World μ} {x : Performance} {i : Invocation} {r : Reaction}
    (h : .ended i r ∈ w.told x) : x.invocation = i ∧ x.reaction = r := by
  rcases List.mem_cons.mp h with heq | h
  · cases heq
  rcases List.mem_cons.mp h with heq | h
  · cases heq
    exact ⟨rfl, rfl⟩
  cases hcause : x.reaction.cause? with
  | none => rw [hcause] at h; cases h
  | some cause =>
    rw [hcause] at h
    obtain ⟨_, -, heq⟩ := List.mem_map.mp h
    cases heq

/-- A report names the bus, the handler and the event. -/
theorem World.Reckoned.cause_of_reported {w : World μ} {i : Invocation} {account : List Occurrence}
    (h : w.Reckoned i account) {place : Nat} {observer : Observer} {failure : Failure}
    (hreported : .reported i place observer failure ∈ account) :
    ∃ cause, failure = w.failure i cause := by
  have hcause : ∀ {cause}, .reported i place observer failure ∈ w.reports i cause →
      ∃ cause, failure = w.failure i cause := by
    intro cause hmem
    obtain ⟨_, -, heq⟩ := List.mem_map.mp hmem
    cases heq
    exact ⟨cause, rfl⟩
  have htold : ∀ {object r}, .reported i place observer failure ∈ w.told ⟨i, object, r⟩ →
      ∃ cause, failure = w.failure i cause := by
    rintro object r (_ | ⟨_, _ | ⟨_, hmem⟩⟩)
    cases hr : r.cause? with
    | none => rw [hr] at hmem; cases hmem
    | some cause => rw [hr] at hmem; exact hcause hmem
  cases h with
  | untouched => cases hreported
  | waiting => cases List.mem_singleton.mp hreported
  | invoked object r => exact htold hreported
  | run object r =>
    obtain _ | ⟨_, hmem⟩ := hreported
    rcases List.mem_append.mp hmem with hmem | hmem
    · exact htold hmem
    · cases List.mem_singleton.mp hmem
  | lost executor =>
    obtain _ | ⟨_, _ | ⟨_, hmem⟩⟩ := hreported
    rcases List.mem_append.mp hmem with hmem | hmem
    · exact hcause hmem
    · cases List.mem_singleton.mp hmem

section Run

variable {β : Behaviour μ} {depth : Nat} {memory : μ} {body : Body μ α} {trace : Trace μ}
  {m : Machine μ α} {i : Invocation}

/-- Threads that are done are at work on nothing. -/
theorem Run.no_activity (h : Run β depth memory body trace m) (hdone : ∀ t, ¬ m.IsAtWork t) (t : Turn) :
    ((conduct m.world).standing trace t).active = [] := by
  have horderly := h.activities.2 t
  cases hp : m.program? t with
  | none => exact horderly.of_none hp
  | some p =>
    obtain rfl : p = .done () := not_not.mp fun hne => hdone t ⟨p, hp, hne⟩
    exact horderly.of_some hp

theorem Run.numbered_of_stage (h : Run β depth memory body trace m) (hdone : ∀ t, ¬ m.IsAtWork t)
    {id : PostId} {stage : PostStage}
    (hstage : stage ∈ ((conduct m.world).roll trace).gather (stages id)) :
    stage = .numbered := by
  have hthread : ∃ t, stage ∈ stages id ((conduct m.world).standing trace t) :=
    Roll.exists_of_mem_gather ((conduct m.world).nodup_roll trace) hstage
  obtain ⟨t, ht⟩ := hthread
  rw [stages, h.no_activity hdone t, List.filterMap_nil, List.append_nil] at ht
  exact List.eq_of_mem_replicate ht

/-- What has been handed over has been selected before. -/
theorem Run.selects_of_submitted (h : Run β depth memory body trace m)
    (hsubmitted : .submitted i ∈ m.world.account i) : trace.Selects i := by
  obtain ⟨p, hp⟩ := (Outlook.located h.protocol.1 i).somewhere
  have htells := hp.tells
  generalize m.world.account i = account at htells hsubmitted
  cases htells with
  | nowhere unsubmitted => exact absurd hsubmitted unsubmitted
  | unborn => cases hsubmitted
  | _ => exact h.selects hp rfl

/-- A delivery that was handed over waits or has come to its end. -/
theorem Run.reckoned_of_submitted (h : Run β depth memory body trace m)
    (hdone : ∀ t, ¬ m.IsAtWork t) (hsubmitted : .submitted i ∈ m.world.account i) :
    m.world.Reckoned i (m.world.account i) := by
  obtain ⟨fate, hfate⟩ := h.exists_fate hsubmitted
  cases fate with
  | waiting => exact hfate.1 ▸ .waiting
  | underway =>
    obtain ⟨-, -, t, -, hwork, -⟩ := hfate
    exact absurd hwork (hdone t)
  | run =>
    obtain ⟨-, -, object, r, -, haccount⟩ := hfate
    exact haccount ▸ .run object r
  | lost =>
    obtain ⟨-, executor, haccount⟩ := hfate
    exact haccount ▸ .lost executor

/-- Whatever has happened to an invocation that was not handed over, its post has been answered. -/
theorem Run.concluded_of_unsubmitted (h : Run β depth memory body trace m)
    (hdone : ∀ t, ¬ m.IsAtWork t) (hunsubmitted : .submitted i ∉ m.world.account i) :
    m.world.account i = [] ∨ ∃ (matched : List Invocation) (ran : List Performance) (outcome : Outcome),
      m.world.story i.post =
        .selected i.post matched :: (ran.flatMap m.world.told ++ [.answered i.post outcome]) ∧
      ran.map Performance.invocation <+: matched ∧ matched.Nodup := by
  have hkept := h.recounted.kept i.post
  have hstages : ∀ stage ∈ ((conduct m.world).roll trace).gather (stages i.post), stage = .numbered :=
    fun stage hstage => h.numbered_of_stage hdone hstage
  rw [World.account_eq] at hunsubmitted ⊢
  generalize ((conduct m.world).roll trace).gather (stages i.post) = stages at hkept hstages
  generalize m.world.story i.post = story at hkept hunsubmitted ⊢
  cases hkept with
  | unborn => exact .inl rfl
  | numbered => exact .inl rfl
  | started => cases hstages _ (List.mem_singleton_self _)
  | @answered matched lines outcome selection isLocal answers =>
    cases answers with
    | handedOver submitted => exact absurd submitted (isLocal _)
    | @dispatched ran _ dispatch =>
      obtain ⟨b, event, found, rfl⟩ := selection
      have hran := dispatch _ fun i hi => congrArg (fun b => (m.world.bus b).settings.policy)
        (bus_deliveries i hi).2.1
      exact .inr ⟨_, ran, outcome, rfl, hran.in_order, Outlook.nodup_deliveries⟩
  | @handed _ matched lines hhanded =>
    refine .inl (List.filter_eq_nil_iff.mpr fun o ho => ?_)
    rw [decide_eq_true_iff]
    intro hi
    rcases List.mem_cons.mp ho with rfl | ho
    · cases hi
    · have hmem := List.mem_cons_of_mem (.selected i.post matched) (hhanded.isRemote o ho i hi)
      exact hunsubmitted (List.mem_filter.mpr ⟨hmem, decide_eq_true rfl⟩)

theorem Run.reckoned (h : Run β depth memory body trace m) (hdone : ∀ t, ¬ m.IsAtWork t)
    (i : Invocation) : m.world.Reckoned i (m.world.account i) := by
  by_cases hsubmitted : .submitted i ∈ m.world.account i
  · exact h.reckoned_of_submitted hdone hsubmitted
  rcases h.concluded_of_unsubmitted hdone hsubmitted with hnil | ⟨matched, ran, outcome, hstory, hran⟩
  · exact hnil ▸ .untouched
  · have hreckoned := m.world.reckoned_of_nodup (hran.2.sublist hran.1.sublist) i
    rw [World.account_eq, hstory, List.filter_cons_of_neg (by exact nofun), List.filter_append]
    exact (List.append_nil _).symm ▸ hreckoned

/-- Nothing happens to an invocation whose post has not selected its handler. -/
theorem Run.selects_of_account (h : Run β depth memory body trace m) (hdone : ∀ t, ¬ m.IsAtWork t)
    {o : Occurrence} (ho : o ∈ m.world.account i) : trace.Selects i := by
  by_cases hsubmitted : .submitted i ∈ m.world.account i
  · exact h.selects_of_submitted hsubmitted
  rcases h.concluded_of_unsubmitted hdone hsubmitted with hnil | ⟨matched, ran, outcome, hstory, hran⟩
  · rw [hnil] at ho
    cases ho
  have hmatched : i ∈ matched := by
    rw [World.account_eq, hstory, List.mem_filter, decide_eq_true_iff] at ho
    obtain ⟨hmem, hi⟩ := ho
    rcases List.mem_cons.mp hmem with rfl | hmem
    · cases hi
    rcases List.mem_append.mp hmem with hmem | hmem
    · obtain ⟨x, hx, ho⟩ := List.mem_flatMap.mp hmem
      rw [World.invocation?_of_mem_told ho] at hi
      cases hi
      exact hran.1.subset (List.mem_map_of_mem hx)
    · cases List.mem_singleton.mp hmem
      cases hi
  obtain ⟨t, name, hmem⟩ := h.activities.1.exists_record (hstory ▸ List.mem_cons_self)
  obtain ⟨later, earlier, hsplit⟩ := List.append_of_mem hmem
  have hselects : Deed.Selects (μ := μ) (.step (.record name (.selected i.post matched)) ()) i :=
    ⟨name, matched, rfl, hmatched⟩
  exact ⟨later, t, _, earlier, hsplit, hselects, h.enrolled hsplit hselects⟩

/-- A handler that has ended was called by its post itself, unless the post handed its delivery over. -/
theorem Run.exists_performance (h : Run β depth memory body trace m) {r : Reaction} {outcome : Outcome}
    (hended : .ended i r ∈ m.world.account i)
    (hanswered : .answered i.post outcome ∈ m.world.story i.post) :
    (∃ matched ran x, IsSelection i.post matched ∧ m.world.story i.post =
        .selected i.post matched :: (ran.flatMap m.world.told ++ [.answered i.post outcome]) ∧
      x ∈ ran ∧ x.invocation = i ∧ x.reaction = r ∧
      m.world.Dispatch (m.world.bus i.bus).settings.policy [] matched ran outcome) ∨
    (.submitted i ∈ m.world.account i ∧ ∀ payload, outcome ≠ .panicked payload) := by
  rw [World.account_eq] at hended
  obtain ⟨hended, -⟩ := List.mem_filter.mp hended
  rcases (h.recounted.kept i.post).of_answered hanswered with
    ⟨matched, ran, hselection, hstory, hdispatch⟩ | ⟨matched, lines, hstory, hhanded⟩
  · obtain ⟨x, hx, htold⟩ : ∃ x ∈ ran, .ended i r ∈ m.world.told x := by
      rw [hstory] at hended
      rcases List.mem_cons.mp hended with heq | hmem
      · cases heq
      rcases List.mem_append.mp hmem with hmem | hmem
      · exact List.mem_flatMap.mp hmem
      · cases List.mem_singleton.mp hmem
    obtain ⟨rfl, rfl⟩ := World.eq_of_ended_mem_told htold
    obtain ⟨b, event, found, hmatched⟩ := id hselection
    have hbus : ∀ j ∈ matched, j.bus = b := fun j hj => (bus_deliveries j (hmatched ▸ hj)).2.1
    have hran := hdispatch _ fun j hj => congrArg (fun b => (m.world.bus b).settings.policy) (hbus j hj)
    have hmem : x.invocation ∈ matched := hran.in_order.subset (List.mem_map_of_mem hx)
    rw [← hbus _ hmem] at hran
    exact .inl ⟨matched, ran, x, hselection, hstory, hx, rfl, rfl, hran⟩
  · rw [hstory] at hended hanswered
    rcases List.mem_cons.mp hended with heq | hmem
    · cases heq
    rcases List.mem_cons.mp hanswered with heq | hlast
    · cases heq
    refine .inr ⟨?_, ?_⟩
    · rw [World.account_eq, hstory]
      exact List.mem_filter.mpr
        ⟨List.mem_cons_of_mem _ (hhanded.isRemote _ hmem i rfl), decide_eq_true rfl⟩
    · rintro payload rfl
      exact hhanded.calm payload hlast

/-- A post ends in a panic only if one of its handlers did. -/
theorem Run.exists_panicked (h : Run β depth memory body trace m) {id : PostId} {payload : Payload}
    (hanswered : .answered id (.panicked payload) ∈ m.world.story id) :
    ∃ i, i.post = id ∧ .ended i (.panicked payload) ∈ m.world.account i := by
  rcases (h.recounted.kept id).of_answered hanswered with
    ⟨_, ran, ⟨b, event, found, rfl⟩, hstory, hdispatch⟩ | ⟨matched, lines, hstory, hhanded⟩
  · have hran := hdispatch _ fun i hi => congrArg (fun b => (m.world.bus b).settings.policy)
      (bus_deliveries i hi).2.1
    obtain ⟨x, hx, hreaction⟩ := (hran.panic_iff payload).mp rfl
    have hpost := (bus_deliveries x.invocation (hran.in_order.subset (List.mem_map_of_mem hx))).1
    refine ⟨x.invocation, hpost, ?_⟩
    have htold : .ended x.invocation (.panicked payload) ∈ m.world.told x :=
      hreaction ▸ List.mem_cons_of_mem _ List.mem_cons_self
    rw [World.account_eq, hpost, hstory]
    refine List.mem_filter.mpr ⟨List.mem_cons_of_mem _ (List.mem_append_left _ ?_), decide_eq_true rfl⟩
    exact List.mem_flatMap.mpr ⟨x, hx, htold⟩
  · rw [hstory] at hanswered
    obtain _ | ⟨_, hmem⟩ := hanswered
    exact absurd hmem (hhanded.calm payload)

end Run

/-- Two lists of tagged values that agree on each tag hold the same values equally often. -/
theorem perm_of_filter_eq {κ ν : Type} [DecidableEq κ] {l l' : List (κ × ν)}
    (h : ∀ k, l.filter (·.1 = k) = l'.filter (·.1 = k)) : l.Perm l' := by
  classical
  refine List.perm_iff_count.mpr fun x => ?_
  have hcount : ∀ l : List (κ × ν), l.count x = (l.filter (·.1 = x.1)).count x := fun l =>
    (List.count_filter (p := fun y : κ × ν => y.1 = x.1) (decide_eq_true rfl)).symm
  rw [hcount, hcount l', h]

/-- What is found in a list about one tag is found where the tag is mentioned. -/
theorem filter_filterMap_eq {A κ ν : Type} [DecidableEq κ] {f : A → Option (κ × ν)} {tag? : A → Option κ}
    (hf : ∀ a x, f a = some x → tag? a = some x.1) (k : κ) (l : List A) :
    (l.filterMap f).filter (·.1 = k) = (l.filter (tag? · = some k)).filterMap f := by
  rw [List.filter_filterMap, List.filterMap_filter]
  refine List.filterMap_congr fun a _ => ?_
  cases ha : f a with
  | none => split <;> rfl
  | some x => simp [hf a x ha, Option.filter]

/-- A place in a numbered list. -/
theorem filterMap_zipIdx_eq {A B : Type} (g : A → B) (l : List A) (first place : Nat) :
    (l.zipIdx first).filterMap (fun x => if x.2 = first + place then some (g x.1) else none) =
      (l[place]?.map g).toList := by
  have hlater : ∀ (l : List A) (start n : Nat), n < start →
      (l.zipIdx start).filterMap (fun x => if x.2 = n then some (g x.1) else none) = [] := by
    intro l start n hstart
    refine List.filterMap_eq_nil_iff.mpr ?_
    rintro ⟨a, n'⟩ hmem
    have hn := List.le_snd_of_mem_zipIdx hmem
    exact if_neg (by omega)
  induction l generalizing first place with
  | nil => rfl
  | cons a l ih =>
    rw [List.zipIdx_cons, List.filterMap_cons]
    cases place with
    | zero =>
      rw [hlater l _ _ (Nat.lt_succ_self _)]
      simp
    | succ place =>
      have hfirst : first ≠ first + (place + 1) := by omega
      have hnext := ih (first + 1) place
      rw [Nat.add_right_comm first 1 place] at hnext
      rw [if_neg hfirst]
      exact hnext

/-- A handler that failed, or a delivery that was lost, with the reason. -/
def Occurrence.failure? : Occurrence → Option (Invocation × Cause)
  | .ended i r => r.cause?.map (i, ·)
  | .dropped i executor => some (i, .abandoned executor)
  | _ => none

/-- What the observer in this place of the list of a bus is told, and which observer it is. -/
def Occurrence.report? (b : BusId) (place : Nat) :
    Occurrence → Option (Invocation × Observer × Failure)
  | .reported i p observer failure =>
    if i.bus = b ∧ p = place then some (i, observer, failure) else none
  | _ => none

namespace World

variable (w : World μ)

/-- Everything that has happened, the earliest first. -/
def occurrences : List Occurrence := w.history.reverse.map Entry.occurrence

/-- The failures of handlers that a bus invoked, and of its deliveries that were lost. -/
def failures (b : BusId) : List Failure :=
  w.occurrences.filterMap fun o => o.failure?.bind fun (i, cause) =>
    if i.bus = b then some (w.failure i cause) else none

/-- What has been handed to the observer in one place of the list of a bus. -/
def heard (b : BusId) (place : Nat) : List (Observer × Failure) :=
  (w.occurrences.filterMap (Occurrence.report? b place)).map Prod.snd

/-- What the observer in this place has to be told when this happens. -/
def due? (b : BusId) (place : Nat) (o : Occurrence) : Option (Invocation × Observer × Failure) :=
  o.failure?.bind fun (i, cause) =>
    if i.bus = b then (w.bus b).observers[place]?.map (i, ·, w.failure i cause) else none

variable {w} {i : Invocation} {b : BusId} {place : Nat}

theorem invocation?_of_report? {o : Occurrence} {x : Invocation × Observer × Failure}
    (h : o.report? b place = some x) : o.invocation? = some x.1 := by
  cases o with
  | reported =>
    rw [Occurrence.report?] at h
    split at h <;> cases h
    rfl
  | _ => cases h

theorem invocation?_of_due? {o : Occurrence} {x : Invocation × Observer × Failure}
    (h : w.due? b place o = some x) : o.invocation? = some x.1 := by
  obtain ⟨⟨i, cause⟩, hfailure, hdue⟩ := Option.bind_eq_some_iff.mp h
  have htag : x.1 = i := by
    dsimp only at hdue
    split at hdue
    · obtain ⟨observer, -, rfl⟩ := Option.map_eq_some_iff.mp hdue
      rfl
    · cases hdue
  subst htag
  cases o with
  | ended j r =>
    obtain ⟨cause, -, heq⟩ := Option.map_eq_some_iff.mp hfailure
    cases heq
    rfl
  | dropped => cases hfailure; rfl
  | _ => cases hfailure

/-- Of all that is told about one failure, each observer is told what it has to be told. -/
theorem filterMap_reports (w : World μ) (b : BusId) (place : Nat) (i : Invocation) (cause : Cause) :
    (w.reports i cause).filterMap (Occurrence.report? b place) =
      (if i.bus = b then (w.bus b).observers[place]?.map (i, ·, w.failure i cause) else none).toList ∧
    (w.reports i cause).filterMap (w.due? b place) = [] := by
  constructor
  · rw [reports, List.filterMap_map]
    by_cases hb : i.bus = b
    · subst hb
      rw [if_pos rfl, ← filterMap_zipIdx_eq (i, ·, w.failure i cause) _ 0 place]
      refine List.filterMap_congr fun x _ => ?_
      simp [Occurrence.report?, failure]
    · rw [if_neg hb]
      refine List.filterMap_eq_nil_iff.mpr fun x _ => ?_
      simp [Occurrence.report?, hb]
  · refine List.filterMap_eq_nil_iff.mpr fun o ho => ?_
    obtain ⟨x, -, rfl⟩ := List.mem_map.mp ho
    rfl

/-- A failure and the reports of it. -/
theorem filterMap_cons_reports {cause : Cause} {o : Occurrence} (hfailure : o.failure? = some (i, cause))
    (hreport : o.report? b place = none) :
    (o :: w.reports i cause).filterMap (Occurrence.report? b place) =
      (o :: w.reports i cause).filterMap (w.due? b place) := by
  obtain ⟨htold, hnone⟩ := w.filterMap_reports b place i cause
  have hdue : w.due? b place o =
      if i.bus = b then (w.bus b).observers[place]?.map (i, ·, w.failure i cause) else none := by
    rw [due?, hfailure]
    rfl
  rw [List.filterMap_cons_none hreport, htold, List.filterMap_cons, hnone, ← hdue]
  cases w.due? b place o <;> rfl

theorem filterMap_told (x : Performance) :
    (w.told x).filterMap (Occurrence.report? b place) = (w.told x).filterMap (w.due? b place) := by
  obtain ⟨i, object, r⟩ := x
  rw [told, List.filterMap_cons_none rfl, List.filterMap_cons_none (f := w.due? b place) rfl]
  cases hcause : r.cause? with
  | none =>
    have hfine : w.due? b place (.ended i r) = none := by
      rw [due?, Occurrence.failure?, hcause]
      rfl
    rw [List.filterMap_cons_none rfl, List.filterMap_cons_none hfine]
    rfl
  | some cause => exact filterMap_cons_reports (congrArg (Option.map (i, ·)) hcause) rfl

/-- As far as one invocation goes, each observer has been told what it had to be told. -/
theorem Reckoned.filterMap_eq {account : List Occurrence} (h : w.Reckoned i account) :
    account.filterMap (Occurrence.report? b place) = account.filterMap (w.due? b place) := by
  cases h with
  | untouched => rfl
  | waiting => rfl
  | invoked object r => exact filterMap_told _
  | run object r =>
    rw [List.filterMap_cons_none rfl, List.filterMap_cons_none rfl, List.filterMap_append,
      List.filterMap_append, filterMap_told]
    rfl
  | lost executor =>
    rw [List.filterMap_cons_none rfl, List.filterMap_cons_none (f := w.due? b place) rfl,
      ← List.cons_append, List.filterMap_append, List.filterMap_append,
      filterMap_cons_reports rfl rfl]
    rfl

/-- What an observer has been told and what it had to be told. -/
theorem perm_of_reckoned (h : ∀ i, w.Reckoned i (w.account i)) (b : BusId) (place : Nat) :
    (w.occurrences.filterMap (Occurrence.report? b place)).Perm
      (w.occurrences.filterMap (w.due? b place)) := by
  refine perm_of_filter_eq fun i => ?_
  rw [filter_filterMap_eq (fun _ _ => invocation?_of_report?) i,
    filter_filterMap_eq (fun _ _ => invocation?_of_due?) i]
  exact (h i).filterMap_eq

theorem map_due? (b : BusId) (place : Nat) :
    (w.occurrences.filterMap (w.due? b place)).map Prod.snd =
      (w.bus b).observers[place]?.elim [] fun observer => (w.failures b).map (observer, ·) := by
  rw [List.map_filterMap]
  cases hobserver : (w.bus b).observers[place]? with
  | none =>
    refine List.filterMap_eq_nil_iff.mpr fun o _ => ?_
    simp [due?, hobserver]
  | some observer =>
    rw [Option.elim_some, failures, List.map_filterMap]
    refine List.filterMap_congr fun o _ => ?_
    cases hfailure : o.failure? with
    | none => simp [due?, hfailure]
    | some x => by_cases hb : x.1.bus = b <;> simp [due?, hfailure, hobserver, hb]

end World

/-- Whatever the order of turns, once nobody is at work: each observer of each bus has been told about
each failure of a handler of the bus and each loss of one of its deliveries once, and about nothing
else, whatever the observers themselves do. A report names the bus, the handler as it was registered
and the event that was posted. What was handed to an executor still waits or has been settled, and only
the panic of a handler has ended a post in a panic. -/
theorem observers_hear_every_failure_once {β : Behaviour μ} {depth : Nat} {memory : μ}
    {body : Body μ α} {trace : Trace μ} {m : Machine μ α} (h : Run β depth memory body trace m)
    (hdone : ∀ t, ¬ m.IsAtWork t) :
    (∀ b place, (m.world.heard b place).Perm
      ((m.world.bus b).observers[place]?.elim [] fun observer =>
        (m.world.failures b).map (observer, ·))) ∧
    (∀ i place observer failure, .reported i place observer failure ∈ m.world.occurrences →
      trace.Selects i ∧ ∃ cause, failure =
        .mk ⟨(m.world.bus i.bus).settings.identifier, i.subscription.subscriber,
          i.subscription.method, i.event.type.name, i.event.describe⟩ cause) ∧
    (∀ i, .submitted i ∈ m.world.account i →
      m.world.account i = [.submitted i] ∨ .settled i ∈ m.world.account i) ∧
    ∀ id payload, .answered id (.panicked payload) ∈ m.world.story id →
      ∃ i, i.post = id ∧ .ended i (.panicked payload) ∈ m.world.account i := by
  have hreckoned := h.reckoned hdone
  refine ⟨fun b place => ?_, fun i place observer failure hreported => ?_, fun i hsubmitted => ?_,
    fun id payload hanswered => ?_⟩
  · rw [← World.map_due?]
    exact (World.perm_of_reckoned hreckoned b place).map Prod.snd
  · have hmem : .reported i place observer failure ∈ m.world.account i :=
      List.mem_filter.mpr ⟨hreported, decide_eq_true rfl⟩
    exact ⟨h.selects_of_account hdone hmem, (hreckoned i).cause_of_reported hmem⟩
  · obtain ⟨fate, hfate⟩ := h.exists_fate hsubmitted
    cases fate with
    | waiting => exact .inl hfate.1
    | underway =>
      obtain ⟨-, -, t, -, hwork, -⟩ := hfate
      exact absurd hwork (hdone t)
    | run => exact .inr (hfate.isOver_iff.mp rfl)
    | lost => exact .inr (hfate.isOver_iff.mp rfl)
  · exact h.exists_panicked hanswered

def Program.isDone {σ : Type} {Reply : σ → Type} : Program Reply α → Bool
  | .done _ => true
  | _ => false

theorem Program.eq_done_of_isDone {σ : Type} {Reply : σ → Type} {p : Program Reply α}
    (h : p.isDone = true) : ∃ a, p = .done a := by
  cases p with
  | done a => exact ⟨a, rfl⟩
  | _ => cases h

/-- Every program has come to its end. -/
def Machine.isOver (m : Machine μ α) : Bool :=
  m.callers.all Program.isDone && m.tasks.values.all Program.isDone &&
    m.workers.values.all Program.isDone

theorem Machine.not_isAtWork_of_isOver {m : Machine μ α} (h : m.isOver = true) (t : Turn) :
    ¬ m.IsAtWork t := by
  obtain ⟨hbefore, hworkers⟩ := (Bool.and_eq_true _ _).mp h
  obtain ⟨hcallers, htasks⟩ := (Bool.and_eq_true _ _).mp hbefore
  rintro ⟨p, hp, hleft⟩
  cases t with
  | caller i =>
    obtain ⟨q, hq, rfl⟩ := Option.map_eq_some_iff.mp hp
    obtain ⟨a, rfl⟩ := Program.eq_done_of_isDone
      (List.all_eq_true.mp hcallers q (List.mem_of_getElem? hq))
    exact hleft rfl
  | task n =>
    obtain ⟨q, hq, rfl⟩ := Option.map_eq_some_iff.mp hp
    obtain ⟨a, rfl⟩ := Program.eq_done_of_isDone
      (List.all_eq_true.mp htasks q (List.mem_map_of_mem (Keyed.mem_pairs_of_get? hq)))
    exact hleft rfl
  | worker e i =>
    obtain ⟨_, rfl⟩ := Program.eq_done_of_isDone
      (List.all_eq_true.mp hworkers p (List.mem_map_of_mem (Keyed.mem_pairs_of_get? hp)))
    exact hleft rfl
  | pass => cases hp

/-- A handler fails, and another one panics after it posted to a bus with an executor. The observer of
both posts there, too, and panics. Of these three deliveries one is run and panics, one is dropped and
one is left. The observer of that bus panics each time. -/
theorem observers_hear_every_failure_once_on_two_buses :
    let tick : Event := ⟨⟨"Tick", "Tick", 0⟩, 0, "tick"⟩
    let echo : Event := ⟨⟨"Echo", "Echo", 1⟩, 0, "echo"⟩
    let crew : Subscriber := ⟨⟨"Crew", 0⟩, "crew",
      [⟨"fail", true, .one .root, ⟨0⟩⟩, ⟨"post", true, .one .root, ⟨1⟩⟩]⟩
    let cave : Subscriber := ⟨⟨"Cave", 0⟩, "cave", [⟨"answer", true, .one .root, ⟨2⟩⟩]⟩
    let β : Behaviour Unit := {
      handle body _ := match body.serial with
        | 0 => .done (.failed (.text "late"))
        | 1 => .step (.post 1 echo) fun _ => .done (.panicked .other)
        | _ => .done (.panicked .other)
      observe body _ := match body.serial with
        | 0 => .step (.post 1 echo) fun _ => .done (some .other)
        | _ => .done (some .other)
      work _ := .done none }
    let body : Body Unit Unit :=
      .step (.openManual "yard" none (.rejected "yard" "full")) fun e =>
        .step (.openBus ⟨"front", .collect, [.custom "watch" "watch" ⟨0⟩]⟩ .publisher) fun b =>
        .step (.openBus ⟨"back", .propagate, [.custom "guard" "guard" ⟨1⟩]⟩ (.executor e)) fun b' =>
        .step (.register b crew) fun _ => .step (.register b' cave) fun _ =>
        .step (.post b tick) fun _ => .step (.runAt e 0) fun _ => .step (.dropAt e 0) fun _ => .done ()
    ∃ trace m, Run β 2 () body trace m ∧ (∀ t, ¬ m.IsAtWork t) ∧ m.world.jobs.length = 1 ∧
      (m.world.failures 0).length = 2 ∧ (m.world.failures 1).length = 2 ∧
      (∀ b place, (m.world.heard b place).Perm
        ((m.world.bus b).observers[place]?.elim [] fun observer =>
          (m.world.failures b).map (observer, ·))) := by
  intro tick echo crew cave β body
  have hseen : ((Machine.start β 2 () body).play β 2 (List.replicate 87 (.caller 0))).any (fun (_, m) =>
      m.isOver = true ∧ m.world.jobs.length = 1 ∧ (m.world.failures 0).length = 2 ∧
      (m.world.failures 1).length = 2) = true := by
    decide +kernel
  obtain ⟨trace, m, hrun, hseen⟩ := Run.exists_of_play hseen
  obtain ⟨hover, hjobs, hfront, hback⟩ := of_decide_eq_true hseen
  have hdone := Machine.not_isAtWork_of_isOver hover
  exact ⟨trace, m, hrun, hdone, hjobs, hfront, hback, (observers_hear_every_failure_once hrun hdone).1⟩

end PubSub
