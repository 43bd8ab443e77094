import PubSub.Proofs.Course
import PubSub.Proofs.Rounds

/-!
# How far posts have got

In every run threads keep to their rounds. So the visits that the history shows of a post are a first
part of the handlers that it has selected, and if the post has been answered, either all of them have
been visited or the last visit gave a reason to stop.
-/
namespace PubSub

open Conduct

variable {μ α : Type}

namespace Conduct.Lawful

variable {C : Conduct μ} {trace : Trace μ} {w : World μ} {t : Turn} {s : Step μ} {reply : s.Reply}

/-- Every step was allowed when it was taken, and no bus has been lost since. -/
theorem exists_step (h : C.Lawful trace w) {later before : Trace μ}
    (htrace : trace = later ++ (t, .step s reply) :: before) :
    ∃ w₀ w₁, C.Lawful before w₀ ∧ C.allows (C.standing before t) s ∧ s.run w₀ = some (reply, w₁) ∧
      w.BusesExtend w₁ := by
  induction h generalizing later with
  | start => exact absurd htrace.symm (List.append_ne_nil_of_right_ne_nil _ (List.cons_ne_nil _ _))
  | @step _ _ w' _ _ _ taken allowed world ih =>
    cases later with
    | nil =>
      cases htrace
      exact ⟨_, w', taken, allowed, world, fun b bus hbus => ⟨bus, hbus, .refl bus⟩⟩
    | cons entry later =>
      obtain ⟨w₀, w₁, hlawful, hallowed, hrun, hextend⟩ := ih (List.cons.inj htrace).2
      exact ⟨w₀, w₁, hlawful, hallowed, hrun, (Step.run_effect world).buses.trans hextend⟩
  | took _ _ _ world ih =>
    cases later with
    | nil => cases htrace
    | cons entry later =>
      obtain ⟨w₀, w₁, hlawful, hallowed, hrun, hextend⟩ := ih (List.cons.inj htrace).2
      exact ⟨w₀, w₁, hlawful, hallowed, hrun, (Step.buses_of_eq world.1).trans hextend⟩
  | woke _ _ _ world ih =>
    cases later with
    | nil => cases htrace
    | cons entry later =>
      obtain ⟨w₀, w₁, hlawful, hallowed, hrun, hextend⟩ := ih (List.cons.inj htrace).2
      exact ⟨w₀, w₁, hlawful, hallowed, hrun, (Step.buses_of_eq world.buses).trans hextend⟩
  | rested _ world ih =>
    obtain ⟨w₀, w₁, hlawful, hallowed, hrun, hextend⟩ := ih htrace
    exact ⟨w₀, w₁, hlawful, hallowed, hrun, (Step.buses_of_eq world.buses).trans hextend⟩

theorem last_step (h : C.Lawful ((t, .step s reply) :: trace) w) :
    ∃ w₀ w₁, C.Lawful trace w₀ ∧ C.allows (C.standing trace t) s ∧ s.run w₀ = some (reply, w₁) ∧
      w.BusesExtend w₁ := h.exists_step (List.nil_append _).symm

theorem last_took {job : Job} (h : C.Lawful ((t, .took job) :: trace) w) :
    ∃ w₀, C.Lawful trace w₀ ∧ job ∈ w₀.jobs := by
  generalize htrace : (t, Deed.took job) :: trace = trace' at h
  induction h with
  | start => cases htrace
  | step => cases htrace
  | took before idle jobs world =>
    cases htrace
    exact ⟨_, before, jobs.mem_iff.mpr List.mem_cons_self⟩
  | woke => cases htrace
  | rested _ world ih => exact ih htrace

theorem exists_allowed (h : C.Lawful trace w) (hmem : (t, .step s reply) ∈ trace) :
    ∃ later before, trace = later ++ (t, .step s reply) :: before ∧
      C.allows (C.standing before t) s := by
  obtain ⟨later, before, htrace⟩ := List.append_of_mem hmem
  obtain ⟨_, _, -, hallowed, -⟩ := h.exists_step htrace
  exact ⟨later, before, htrace, hallowed⟩

/-- What a thread has written about a post is part of the post's story. -/
theorem mem_story (h : C.Lawful trace w) {name : Thread} {o : Occurrence}
    (hmem : (t, .step (.record name o) ()) ∈ trace) {id : PostId} (hpost : o.post? = some id) :
    o ∈ w.story id := by
  induction h with
  | start => cases hmem
  | @step _ w₀ w₁ _ s _ before allowed world ih =>
    rw [World.story, Step.recorded_run world fun _ _ _ => rfl]
    rcases List.mem_cons.mp hmem with heq | hmem
    · cases heq
      exact List.mem_append_right _ (List.mem_filter.mpr
        ⟨List.mem_singleton_self o, decide_eq_true hpost⟩)
    · exact List.mem_append_left _ (ih hmem)
  | took before _ _ world ih =>
    rw [World.story, World.recorded_of_history_eq world.2.1]
    rcases List.mem_cons.mp hmem with heq | hmem
    · cases heq
    · exact ih hmem
  | woke before _ _ world ih =>
    rw [World.story, World.recorded_of_history_eq world.history]
    rcases List.mem_cons.mp hmem with heq | hmem
    · cases heq
    · exact ih hmem
  | rested before world ih =>
    rw [World.story, World.recorded_of_history_eq world.history]
    exact ih hmem

end Conduct.Lawful

/-- Everything in the trace of a run was done at some moment. -/
theorem Run.exists_moment {β : Behaviour μ} {depth : Nat} {memory : μ} {body : Body μ α}
    {trace later before : Trace μ} {m : Machine μ α} (h : Run β depth memory body trace m) {t : Turn}
    {deed : Deed μ} (htrace : trace = later ++ (t, deed) :: before) :
    ∃ m₀ m₁, Run β depth memory body before m₀ ∧ Machine.Turned β depth m₀ m₁ t [deed] := by
  obtain ⟨m₀, m₁, hbefore, hmoved, hdeeds, -⟩ := h.ofStart.exists_moment htrace
  exact ⟨m₀, m₁, .of_course hbefore, hdeeds ▸ Machine.turn_turned hmoved⟩

namespace Rounds

variable {last : World μ} {trace : Trace μ} {w w' : World μ}

/-- Only deliveries that bear it out are ever stored by executors. -/
theorem defers_of_lawful (h : (conduct last).Lawful trace w) : ∀ job ∈ w.jobs, last.Defers job := by
  induction h with
  | start => exact List.forall_mem_nil _
  | @step _ _ _ t s reply before allowed world ih =>
    intro job hjob
    have hmem := (Step.run_effect world).jobs.mem_iff.mp (List.mem_append_right _ hjob)
    rcases List.mem_append.mp hmem with hgained | hold
    · cases s with
      | offer e job' =>
        cases reply with
        | false => cases hgained
        | true => exact List.mem_singleton.mp hgained ▸ allowed
      | send e job' =>
        cases reply with
        | false => cases hgained
        | true => exact List.mem_singleton.mp hgained ▸ allowed
      | openExecutor x =>
        have hnone : x.jobs = [] := allowed
        rw [Step.gained, hnone] at hgained
        cases hgained
      | _ => cases hgained
    · exact ih job hold
  | took before _ jobs _ ih =>
    exact fun job hjob => ih job (jobs.mem_iff.mpr (List.mem_cons_of_mem _ hjob))
  | woke before _ _ world ih => exact fun job hjob => ih job (world.jobs.mem_iff.mp hjob)
  | rested before world ih => exact fun job hjob => ih job (world.jobs.mem_iff.mp hjob)

/-- What a trace may contain that leads to this world. -/
structure Covers (last : World μ) (trace : Trace μ) (w : World μ) : Prop where
  facts : ∀ entry ∈ trace, entry.2.IsTrue last
  kept : ∀ t name o, (t, .step (.record name o) ()) ∈ trace → ∀ id, o.post? = some id → o ∈ last.story id
  buses : last.BusesExtend w

theorem reliable (last : World μ) : (conduct last).Reliable (Covers last) where
  earlier _ _ _ _ hextend h := ⟨(List.forall_mem_append.mp h.facts).2,
    fun t name o hmem => h.kept t name o (List.mem_append_right _ hmem), h.buses.trans hextend⟩
  step trace w t s reply hlawful h := by
    refine ⟨h.facts _ List.mem_cons_self, ?_⟩
    obtain ⟨w₀, w₁, hbefore, -, hrun, hextend⟩ := hlawful.last_step
    have hbuses := h.buses.trans hextend
    cases s with
    | record name o => exact h.kept t name o List.mem_cons_self
    | readBus b =>
      obtain ⟨bus, hbus, heq⟩ := Option.map_eq_some_iff.mp hrun
      obtain ⟨rfl, rfl⟩ := Prod.mk.inj heq
      obtain ⟨bus', hbus', hext⟩ := hbuses b _ hbus
      exact fun type table htable => World.bus_of_getElem? hbus' ▸ hext.tables type table htable
    | keepTable b type table =>
      obtain ⟨bus, hbus, heq⟩ := Option.map_eq_some_iff.mp hrun
      obtain ⟨rfl, rfl⟩ := Prod.mk.inj heq
      have hopen := (List.getElem?_eq_some_iff.mp hbus).1
      obtain ⟨bus', hbus', hext⟩ := hbuses b _ (List.getElem?_set_self hopen)
      have hkept := hext.tables type _ (bus.get?_keepTable type table)
      rwa [← World.bus_of_getElem? hbus'] at hkept
    | pick e place =>
      cases reply with
      | none => trivial
      | some job =>
        exact defers_of_lawful hbefore job ((Step.run_effect hrun).jobs.mem_iff.mp
          (List.mem_append_left _ List.mem_cons_self))
    | _ => trivial
  job trace w t job hlawful h := by
    obtain ⟨w₀, hbefore, hmem⟩ := hlawful.last_took
    exact defers_of_lawful hbefore job hmem

end Rounds

theorem Run.covers {β : Behaviour μ} {depth : Nat} {memory : μ} {body : Body μ α} {trace : Trace μ}
    {m : Machine μ α} (h : Run β depth memory body trace m) : Rounds.Covers m.world trace m.world := by
  refine ⟨?_, ?_, ?_⟩
  · exact Outlook.isTrue_of_lawful h.protocol.1 (Outlook.of_covers ..)
      fun b bus hbus => ⟨bus, hbus, .refl bus⟩
  · exact fun t name o hmem id hpost => h.activities.1.mem_story hmem hpost
  · exact fun b bus hbus => ⟨bus, hbus, .refl bus⟩

/-- In every run threads keep to their rounds. -/
theorem Run.rounds {β : Behaviour μ} {depth : Nat} {memory : μ} {body : Body μ α} {trace : Trace μ}
    {m : Machine μ α} (h : Run β depth memory body trace m) :
    (Rounds.conduct m.world).Lawful trace m.world :=
  (Conduct.Run.lawful (Rounds.governs β depth body) (Rounds.reliable m.world) h h.covers).1

/-- Nothing that tells how far a post has got. -/
def World.IsAside (w : World μ) (o : Occurrence) : Prop :=
  w.visit? o = none ∧ (∀ id matched, o ≠ .selected id matched) ∧ ∀ id outcome, o ≠ .answered id outcome

/-- What a deed that keeps to the rules does to the rounds of its thread. -/
inductive Rounds.Moves (last : World μ) (g g' : Rounds) (deed : Deed μ) : Prop where
  | aside (quiet : ∀ o, deed.occurrence? = some o → last.IsAside o) (number : g'.number = g.number)
      (tours : g'.tours = g.tours)
  | serial {n : Nat} (is : deed = .step .serial n) (number : g'.number = some n)
      (tours : g'.tours = g.tours)
  | select {id : PostId} {matched : List Invocation}
      (tells : deed.occurrence? = some (.selected id matched)) (numbered : g.number = some id)
      (number : g'.number = none) (tours : g'.tours = ⟨id, [], matched⟩ :: g.tours)
  | visit {o : Occurrence} {i : Invocation} {tour : Tour} {todo : List Invocation} {rest : List Tour}
      (tells : deed.occurrence? = some o) (visits : last.visit? o = some i)
      (before : g.tours = tour :: rest) (post : tour.id = i.post) (next : tour.todo = i :: todo)
      (number : g'.number = g.number)
      (tours : g'.tours = ⟨tour.id, tour.visited ++ [i], todo⟩ :: rest)
  | answer {id : PostId} {outcome : Outcome} {tour : Tour}
      (tells : deed.occurrence? = some (.answered id outcome)) (before : g.tours = tour :: g'.tours)
      (is : tour.id = id) (ends : last.Ends g.said tour outcome) (number : g'.number = g.number)

namespace Rounds

variable {last : World μ} {g g' : Rounds} {deed : Deed μ} {id : PostId}

theorem moves_record {t : Thread} {o : Occurrence} (h : Vouches last g o) :
    Moves last g (g.say last o) (.step (.record t o) ()) := by
  cases o with
  | selected id matched => exact .select rfl h.1 rfl rfl
  | answered id outcome =>
    obtain ⟨tour, rest, htours, hid, hends⟩ := h
    have hrest : (g.say last (.answered id outcome)).tours = rest := congrArg List.tail htours
    exact .answer rfl (hrest ▸ htours) hid hends rfl
  | submitted i =>
    obtain ⟨tour, todo, rest, htours, hpost, htodo⟩ := h
    refine .visit rfl rfl htours hpost htodo ?_ ?_ <;>
      simp only [say, World.visit?, Option.elim_some, visit, htours, htodo, List.tail_cons]
  | called i object =>
    cases hvisit : last.visit? (.called i object) with
    | none =>
      refine .aside (fun o ho => ?_) ?_ ?_
      · cases ho
        refine ⟨hvisit, ?_, ?_⟩ <;>
        · intro _ _ heq
          cases heq
      all_goals simp only [say, hvisit, Option.elim_none]
    | some j =>
      simp only [Vouches, hvisit, Option.elim_some] at h
      obtain ⟨tour, todo, rest, htours, hpost, htodo⟩ := h
      refine .visit rfl hvisit htours hpost htodo ?_ ?_ <;>
        simp only [say, hvisit, Option.elim_some, visit, htours, htodo, List.tail_cons]
  | _ =>
    refine .aside (fun o ho => ?_) rfl rfl
    cases ho
    refine ⟨rfl, ?_, ?_⟩ <;>
    · intro _ _ heq
      cases heq

theorem moves_step {s : Step μ} (h : Allows last g s) (reply : s.Reply) :
    Moves last g (g.after last s reply) (.step s reply) := by
  cases s with
  | serial => exact .serial rfl rfl rfl
  | record t o => exact moves_record h
  | _ =>
    refine .aside ?_ rfl rfl
    rintro o ⟨⟩

/-- What a thread has for a post: its serial, or the post on its round. -/
def progress (id : PostId) (g : Rounds) : List (Option Tour) :=
  (if g.number = some id then [none] else []) ++ (g.tours.filter (·.id = id)).map some

/-- What changes in what there is for a post. -/
inductive Changes (last : World μ) (said : List Occurrence) (id : PostId) (deed : Deed μ) :
    List (Option Tour) → List (Option Tour) → Prop where
  | idle (quiet : ∀ o ∈ deed.tells id, last.IsAside o) : Changes last said id deed [] []
  | number (is : deed = .step .serial id) : Changes last said id deed [] [none]
  | forget (silent : deed.tells id = []) : Changes last said id deed [none] []
  | select {matched : List Invocation} (tells : deed.tells id = [.selected id matched]) :
      Changes last said id deed [none] [some ⟨id, [], matched⟩]
  | visit {o : Occurrence} {i : Invocation} {tour : Tour} {todo : List Invocation}
      (tells : deed.tells id = [o]) (visits : last.visit? o = some i) (next : tour.todo = i :: todo) :
      Changes last said id deed [some tour] [some ⟨tour.id, tour.visited ++ [i], todo⟩]
  | answer {outcome : Outcome} {tour : Tour} (tells : deed.tells id = [.answered id outcome])
      (ends : last.Ends said tour outcome) : Changes last said id deed [some tour] []

theorem post?_of_visit? {o : Occurrence} {i : Invocation} (h : last.visit? o = some i) :
    o.post? = some i.post := by
  cases o with
  | called j object =>
    rw [World.visit?] at h
    split at h <;> cases h
    rfl
  | submitted j => cases h; rfl
  | _ => cases h

/-- One thread's progress with a post changes at most, and the deed says so. -/
def ChangesOne (last : World μ) (g g' : Rounds) (deed : Deed μ) (id : PostId) : Prop :=
  ∃ before after rest, (g.progress id).Perm (before ++ rest) ∧ (g'.progress id).Perm (after ++ rest) ∧
    Changes last g.said id deed before after

theorem changesOne_idle (hquiet : ∀ o ∈ deed.tells id, last.IsAside o)
    (hnumber : (if g'.number = some id then [none] else [] : List (Option Tour)) =
      if g.number = some id then [none] else [])
    (htours : g'.tours.filter (·.id = id) = g.tours.filter (·.id = id)) :
    ChangesOne last g g' deed id := by
  refine ⟨[], [], g.progress id, .refl _, ?_, .idle hquiet⟩
  rw [progress, progress, hnumber, htours]
  exact .refl _

theorem filter_cons_self {tour : Tour} {rest : List Tour} :
    (tour :: rest).filter (·.id = tour.id) = tour :: rest.filter (·.id = tour.id) :=
  List.filter_cons_of_pos (decide_eq_true rfl)

theorem filter_cons_of_ne {tour : Tour} {rest : List Tour} (h : tour.id ≠ id) :
    (tour :: rest).filter (·.id = id) = rest.filter (·.id = id) :=
  List.filter_cons_of_neg fun heq => h (of_decide_eq_true heq)

/-- Of a thread's posts the one on top is the first that counts. -/
theorem progress_perm {tour : Tour} {rest : List Tour} (h : g.tours = tour :: rest) (hid : tour.id = id) :
    (g.progress id).Perm ([some tour] ++ ((if g.number = some id then [none] else []) ++
      (rest.filter (·.id = id)).map some)) := by
  subst hid
  rw [progress, h, filter_cons_self]
  exact List.perm_middle

theorem Moves.changes (h : Moves last g g' deed) (id : PostId) : ChangesOne last g g' deed id := by
  have hnothing : ∀ {o : Occurrence}, deed.occurrence? = some o → o.post? ≠ some id →
      deed.tells id = [] := fun ho hpost => (Activities.tells_of ho).trans (if_neg hpost)
  have hone : ∀ {o : Occurrence}, deed.occurrence? = some o → o.post? = some id →
      deed.tells id = [o] := fun ho hpost => (Activities.tells_of ho).trans (if_pos hpost)
  cases h with
  | aside quiet number tours =>
    refine changesOne_idle (fun o ho => ?_) (by rw [number]) (by rw [tours])
    exact quiet o (Option.mem_toList.mp (List.mem_of_mem_filter ho))
  | @serial n is number tours =>
    subst is
    by_cases hn : n = id
    · subst hn
      by_cases hold : g.number = some n
      · exact changesOne_idle (List.forall_mem_nil _) (by rw [number, hold]) (by rw [tours])
      · refine ⟨[], [none], g.progress n, .refl _, ?_, .number rfl⟩
        rw [progress, progress, number, tours, if_pos rfl, if_neg hold]
        exact .refl _
    · by_cases hold : g.number = some id
      · refine ⟨[none], [], (g.tours.filter (·.id = id)).map some, ?_, ?_, .forget rfl⟩
        · rw [progress, if_pos hold]
        · rw [progress, number, if_neg fun heq => hn (Option.some.inj heq), tours]
      · refine changesOne_idle (List.forall_mem_nil _) ?_ (by rw [tours])
        rw [number, if_neg fun heq => hn (Option.some.inj heq), if_neg hold]
  | @select id' matched tells numbered number tours =>
    by_cases hid : id' = id
    · subst hid
      refine ⟨[none], [some ⟨id', [], matched⟩], (g.tours.filter (·.id = id')).map some, ?_, ?_,
        .select (hone tells rfl)⟩
      · rw [progress, if_pos numbered]
      · refine (progress_perm tours rfl).trans ?_
        rw [number, if_neg nofun]
        exact .refl _
    · have hsilent := hnothing tells fun heq => hid (Option.some.inj heq)
      refine changesOne_idle (hsilent ▸ List.forall_mem_nil _) ?_ ?_
      · rw [number, numbered, if_neg nofun, if_neg fun heq => hid (Option.some.inj heq)]
      · rw [tours]
        exact filter_cons_of_ne hid
  | @visit o i tour todo rest tells visits before post next number tours =>
    by_cases hid : tour.id = id
    · have hpost : o.post? = some id := by rw [post?_of_visit? visits, ← post, hid]
      refine ⟨[some tour], [some ⟨tour.id, tour.visited ++ [i], todo⟩], _, progress_perm before hid, ?_,
        .visit (hone tells hpost) visits next⟩
      rw [← number]
      exact progress_perm tours hid
    · have hsilent := hnothing tells fun heq =>
        hid (post.trans (Option.some.inj ((post?_of_visit? visits).symm.trans heq)))
      refine changesOne_idle (hsilent ▸ List.forall_mem_nil _) (by rw [number]) ?_
      rw [tours, before, filter_cons_of_ne hid]
      exact filter_cons_of_ne hid
  | @answer id' outcome tour tells before is ends number =>
    by_cases hid : tour.id = id
    · have hpost : Occurrence.post? (.answered id' outcome) = some id := congrArg some (is.symm.trans hid)
      have heq : id' = id := is.symm.trans hid
      subst heq
      refine ⟨[some tour], [], _, progress_perm before hid, ?_, .answer (hone tells hpost) ends⟩
      rw [progress, number]
      exact .refl _
    · have hsilent := hnothing tells fun heq => hid (is.trans (Option.some.inj heq))
      refine changesOne_idle (hsilent ▸ List.forall_mem_nil _) (by rw [number]) ?_
      rw [before, filter_cons_of_ne hid]

end Rounds

/-- The story of a post that has selected these handlers shows visits to them in their order, and an
answer only when all have been visited or the last visit gave a reason to stop. -/
structure World.Pursues (w : World μ) (id : PostId) (matched : List Invocation)
    (story : List Occurrence) : Prop where
  selected : ∀ others, .selected id others ∈ story → others = matched
  in_order : story.filterMap w.visit? <+: matched
  answered : ∀ outcome, .answered id outcome ∈ story → story.filterMap w.visit? = matched ∨
    ∃ i, (story.filterMap w.visit?).getLast? = some i ∧ w.Halts story i outcome

/-- The story of a post that has not set out. -/
structure World.Awaits (w : World μ) (id : PostId) (story : List Occurrence) : Prop where
  unselected : ∀ matched, .selected id matched ∉ story
  unvisited : story.filterMap w.visit? = []
  unanswered : ∀ outcome, .answered id outcome ∉ story

/-- The story of a post, given what there is for the post among all threads. -/
inductive Pursued (last : World μ) (id : PostId) : List (Option Tour) → List Occurrence → Prop where
  | ahead {progress : List (Option Tour)} {story : List Occurrence}
      (unborn : progress = [] ∨ progress = [none])
      (awaits : last.Awaits id story) : Pursued last id progress story
  | underway {tour : Tour} {story : List Occurrence}
      (selected : ∀ matched, .selected id matched ∈ story → matched = tour.visited ++ tour.todo)
      (visits : story.filterMap last.visit? = tour.visited)
      (unanswered : ∀ outcome, .answered id outcome ∉ story) : Pursued last id [some tour] story
  | complete {matched : List Invocation} {story : List Occurrence}
      (pursues : last.Pursues id matched story) : Pursued last id [] story

section Pursued

variable {last : World μ} {id : PostId} {progress progress' rest : List (Option Tour)}
  {story more said : List Occurrence}

theorem Pursued.perm (h : Pursued last id progress story) (hperm : progress'.Perm progress) :
    Pursued last id progress' story := by
  cases h with
  | ahead unborn awaits =>
    refine .ahead ?_ awaits
    rcases unborn with rfl | rfl
    · exact .inl hperm.eq_nil
    · exact .inr (List.perm_singleton.mp hperm)
  | underway selected visits unanswered =>
    rw [List.perm_singleton.mp hperm]
    exact .underway selected visits unanswered
  | complete pursues =>
    rw [hperm.eq_nil]
    exact .complete pursues

section Aside

variable (hmore : ∀ o ∈ more, last.IsAside o)

include hmore

theorem visits_append : (story ++ more).filterMap last.visit? = story.filterMap last.visit? := by
  rw [List.filterMap_append, List.filterMap_eq_nil_iff.mpr fun o ho => (hmore o ho).1, List.append_nil]

theorem selected_mem {matched : List Invocation} (h : .selected id matched ∈ story ++ more) :
    .selected id matched ∈ story :=
  (List.mem_append.mp h).resolve_right fun hnew => (hmore _ hnew).2.1 _ _ rfl

theorem answered_mem {outcome : Outcome} (h : .answered id outcome ∈ story ++ more) :
    .answered id outcome ∈ story :=
  (List.mem_append.mp h).resolve_right fun hnew => (hmore _ hnew).2.2 _ _ rfl

theorem World.Awaits.aside (h : last.Awaits id story) : last.Awaits id (story ++ more) :=
  ⟨fun _ hmem => h.unselected _ (selected_mem hmore hmem), (visits_append hmore).trans h.unvisited,
    fun _ hmem => h.unanswered _ (answered_mem hmore hmem)⟩

/-- What tells nothing about the progress of a post leaves it as it is. -/
theorem Pursued.aside (h : Pursued last id progress story) :
    Pursued last id progress (story ++ more) := by
  cases h with
  | ahead unborn awaits => exact .ahead unborn (awaits.aside hmore)
  | underway selected visits unanswered =>
    exact .underway (fun _ hmem => selected _ (selected_mem hmore hmem))
      ((visits_append hmore).trans visits)
      fun _ hmem => unanswered _ (answered_mem hmore hmem)
  | complete pursues =>
    have hvisits : (story ++ more).filterMap last.visit? = story.filterMap last.visit? :=
      visits_append hmore
    refine .complete ⟨fun _ hmem => pursues.selected _ (selected_mem hmore hmem),
      hvisits ▸ pursues.in_order, fun outcome hmem => ?_⟩
    rw [hvisits]
    exact (pursues.answered outcome (answered_mem hmore hmem)).imp_right fun ⟨i, hi, hhalts⟩ =>
      ⟨i, hi, hhalts.mono (List.subset_append_left story more)⟩

end Aside

/-- While a post is on its round, nothing else is going on for it. -/
theorem Pursued.of_tour {tour : Tour} (h : Pursued last id (some tour :: rest) story) :
    rest = [] ∧ (∀ matched, .selected id matched ∈ story → matched = tour.visited ++ tour.todo) ∧
      story.filterMap last.visit? = tour.visited ∧ ∀ outcome, .answered id outcome ∉ story := by
  cases h with
  | ahead unborn _ => rcases unborn with h | h <;> cases h
  | underway selected visits unanswered => exact ⟨rfl, selected, visits, unanswered⟩

/-- A number is drawn for a post before anything else happens to it. -/
theorem Pursued.of_number (h : Pursued last id (none :: rest) story) :
    rest = [] ∧ last.Awaits id story := by
  cases h with
  | ahead unborn awaits =>
    refine ⟨?_, awaits⟩
    rcases unborn with h | h <;> cases h
    rfl

theorem mem_of_mem_concat {o o' : Occurrence} (h : o ∈ story ++ [o']) (hne : o ≠ o') : o ∈ story :=
  (List.mem_append.mp h).resolve_right fun hnew => hne (List.mem_singleton.mp hnew)

/-- A post that ends has a story that its answer requires. -/
theorem Pursued.answer {tour : Tour} {outcome : Outcome} (h : Pursued last id (some tour :: rest) story)
    (hends : last.Ends said tour outcome) (hstory : ∀ o ∈ story, o.post? = some id)
    (hsaid : ∀ o ∈ said, o.post? = some id → o ∈ story) :
    Pursued last id rest (story ++ [.answered id outcome]) := by
  obtain ⟨rfl, selected, visits, unanswered⟩ := h.of_tour
  have hvisits : (story ++ [Occurrence.answered id outcome]).filterMap last.visit? = tour.visited := by
    rw [List.filterMap_append, visits]
    exact List.append_nil _
  refine .complete ⟨fun _ hmem => selected _ (mem_of_mem_concat hmem nofun), ?_, fun outcome' hmem => ?_⟩
  · rw [hvisits]
    exact List.prefix_append ..
  have hsame : outcome' = outcome := by
    by_contra hne
    exact unanswered _ (mem_of_mem_concat hmem fun heq => hne (Occurrence.answered.inj heq).2)
  rw [hvisits]
  subst hsame
  rcases hends with hdone | ⟨i, hi, hhalts⟩
  · exact .inl (by rw [hdone, List.append_nil])
  · refine .inr ⟨i, hi, ?_⟩
    have hpost : some i.post = some id := by
      have hmem := visits ▸ List.mem_of_mem_getLast? hi
      obtain ⟨o, ho, hvisit⟩ := List.mem_filterMap.mp hmem
      exact (Rounds.post?_of_visit? hvisit).symm.trans (hstory o ho)
    cases hhalts with
    | failed discipline ended stops =>
      exact .failed discipline (List.mem_append_left _ (hsaid _ ended hpost)) stops
    | rejected discipline dropped refused =>
      exact .rejected discipline (List.mem_append_left _ (hsaid _ dropped hpost)) refused

theorem Pursued.next {deed : Deed μ} {before after : List (Option Tour)}
    (h : Pursued last id (before ++ rest) story)
    (hchanges : Rounds.Changes last said id deed before after)
    (hstory : ∀ o ∈ story, o.post? = some id) (hsaid : ∀ o ∈ said, o.post? = some id → o ∈ story)
    (hnew : deed = .step .serial id → before ++ rest = [] ∧ last.Awaits id story) :
    Pursued last id (after ++ rest) (story ++ deed.tells id) := by
  cases hchanges with
  | idle quiet => exact h.aside quiet
  | number is =>
    obtain ⟨hnil, hawaits⟩ := hnew is
    obtain rfl : rest = [] := hnil
    subst is
    exact .ahead (.inr rfl) (hawaits.aside (List.forall_mem_nil _))
  | forget silent =>
    obtain ⟨rfl, hawaits⟩ := h.of_number
    rw [silent]
    exact .ahead (.inl rfl) (hawaits.aside (List.forall_mem_nil _))
  | @select matched tells =>
    obtain ⟨rfl, hawaits⟩ := h.of_number
    rw [tells]
    refine .underway (fun matched' hmem => ?_) ?_ fun _ hmem =>
      hawaits.unanswered _ (mem_of_mem_concat hmem nofun)
    · by_contra hne
      exact hawaits.unselected _ (mem_of_mem_concat hmem fun heq => hne (Occurrence.selected.inj heq).2)
    · rw [List.filterMap_append, hawaits.unvisited]
      rfl
  | @visit o i tour todo tells visits next =>
    obtain ⟨rfl, selected, visited, unanswered⟩ := h.of_tour
    rw [tells]
    have hne : (∀ matched, .selected id matched ≠ o) ∧ ∀ outcome, .answered id outcome ≠ o := by
      constructor <;> rintro _ rfl <;> cases visits
    refine .underway (fun matched hmem => ?_) ?_ fun _ hmem =>
      unanswered _ (mem_of_mem_concat hmem (hne.2 _))
    · rw [selected matched (mem_of_mem_concat hmem (hne.1 _)), next, List.append_assoc]
      rfl
    · rw [List.filterMap_append, visited, List.filterMap_cons_some visits]
      rfl
  | answer tells ends =>
    rw [tells]
    exact h.answer ends hstory hsaid

end Pursued

namespace Rounds

variable {last : World μ} {trace : Trace μ} {w w' : World μ} {t : Turn} {deed : Deed μ}

/-- Every post has the story that fits its progress, and what a thread has written down can be found. -/
structure Charted (last : World μ) (trace : Trace μ) (w : World μ) : Prop where
  pursued : ∀ id, Pursued last id (((conduct last).roll trace).gather (progress id)) (w.story id)
  later : ∀ id, w.serial ≤ id →
    ((conduct last).roll trace).gather (progress id) = [] ∧ last.Awaits id (w.story id)
  said : ∀ t, ∀ o ∈ ((conduct last).standing trace t).said, ∀ id, o.post? = some id → o ∈ w.story id

theorem progress_base (id : PostId) (t : Turn) : progress id ((conduct last).base t) = [] := by
  rw [progress, if_neg nofun]
  rfl

/-- What a thread has written down is what it had written down before, or what it writes now. -/
theorem mem_said_step {g : Rounds} {s : Step μ} {reply : s.Reply} {o : Occurrence}
    (h : o ∈ (g.after last s reply).said) : o ∈ g.said ∨ s.occurrence? = some o := by
  cases s with
  | record t o' =>
    have hsaid : (g.say last o').said = o' :: g.said := by
      have hvisited : ∀ (g : Rounds) (i : Invocation), (g.visit i).said = g.said := by
        intro g i
        unfold visit
        split <;> rfl
      cases o' with
      | called i object =>
        cases hvisit : last.visit? (.called i object) with
        | none => simp only [say, hvisit, Option.elim_none]
        | some j => simp only [say, hvisit, Option.elim_some, hvisited]
      | submitted i => exact hvisited _ i
      | _ => rfl
    change o ∈ (g.say last o').said at h
    rw [hsaid] at h
    exact (List.mem_cons.mp h).symm.imp_right fun heq => congrArg some heq.symm
  | _ => exact .inl h

theorem charted_start (memory : μ) : Charted last [] (.start memory) :=
  ⟨fun _ => .ahead (.inl rfl) ⟨fun _ => List.not_mem_nil, rfl, fun _ => List.not_mem_nil⟩,
    fun _ _ => ⟨rfl, fun _ => List.not_mem_nil, rfl, fun _ => List.not_mem_nil⟩, fun _ _ => nofun⟩

theorem post?_of_mem_story {id : PostId} : ∀ o ∈ w.story id, o.post? = some id := fun _ ho =>
  (World.mem_story.mp ho).2

theorem Charted.next (h : Charted last trace w)
    (hmoves : Moves last ((conduct last).standing trace t)
      ((conduct last).next t ((conduct last).standing trace t) deed) deed)
    (hdoes : deed.Does w w') (hstory : ∀ id, w'.story id = w.story id ++ deed.tells id)
    (hsaid : ∀ o ∈ ((conduct last).next t ((conduct last).standing trace t) deed).said,
      o ∈ ((conduct last).standing trace t).said ∨ deed.occurrence? = some o) :
    Charted last ((t, deed) :: trace) w' := by
  -- a deed changes the progress of one thread with a post at most
  have hgather : ∀ id, ∃ before after rest,
      (((conduct last).roll trace).gather (progress id)).Perm (before ++ rest) ∧
      (((conduct last).roll ((t, deed) :: trace)).gather (progress id)).Perm (after ++ rest) ∧
      Changes last ((conduct last).standing trace t).said id deed before after := by
    intro id
    obtain ⟨before, after, common, hwas, his, hchanges⟩ := hmoves.changes id
    obtain ⟨others, hbefore, hafter⟩ := Roll.gather_put (f := progress id) ((conduct last).roll trace)
      ((conduct last).next t ((conduct last).standing trace t) deed) (progress_base id t)
    refine ⟨before, after, common ++ others, ?_, ?_, hchanges⟩
    · rw [← List.append_assoc]
      exact hbefore.trans (hwas.append_right others)
    · rw [← List.append_assoc]
      exact hafter.trans (his.append_right others)
  refine ⟨fun id => ?_, fun id hlater => ?_, fun u o ho id hid => ?_⟩
  · obtain ⟨before, after, rest, hbefore, hafter, hchanges⟩ := hgather id
    rw [hstory]
    refine (((h.pursued id).perm hbefore.symm).next hchanges post?_of_mem_story
      (fun o ho hid => h.said t o ho id hid) fun hdeed => ?_).perm hafter
    obtain ⟨hnone, hawaits⟩ := h.later id (Nat.le_of_eq (hdoes.numbered id hdeed).1.symm)
    rw [hnone] at hbefore
    exact ⟨hbefore.symm.eq_nil, hawaits⟩
  · obtain ⟨hnone, hawaits⟩ := h.later id (Nat.le_trans hdoes.later hlater)
    obtain ⟨before, after, rest, hbefore, hafter, hchanges⟩ := hgather id
    rw [hnone] at hbefore
    obtain ⟨rfl, rfl⟩ := List.append_eq_nil_iff.mp hbefore.symm.eq_nil
    rw [hstory]
    cases hchanges with
    | idle quiet => exact ⟨hafter.eq_nil, hawaits.aside quiet⟩
    | number is =>
      obtain ⟨rfl, hserial⟩ := hdoes.numbered id is
      omega
  · rw [hstory]
    rw [Conduct.standing_cons] at ho
    split at ho
    · rename_i hu
      subst hu
      rcases hsaid o ho with hold | hnew
      · exact List.mem_append_left _ (h.said u o hold id hid)
      · rw [Activities.tells_of hnew, if_pos hid]
        exact List.mem_append_right _ (List.mem_singleton_self o)
    · exact List.mem_append_left _ (h.said u o ho id hid)

theorem charted (h : (conduct last).Lawful trace w) : Charted last trace w := by
  induction h with
  | start memory => exact charted_start memory
  | @step trace w w' t s reply before allowed world ih =>
    exact ih.next (moves_step allowed reply) (Deed.does_step world)
      (fun id => Step.recorded_run world fun _ _ _ => rfl) fun o => mem_said_step
  | @took trace w w' e i job before idle jobs world ih =>
    refine ih.next (.aside (fun o ho => by cases ho) rfl rfl) (Deed.does_took jobs world)
      (fun id => ?_) fun o ho => .inl ho
    rw [World.story, World.recorded_of_history_eq world.2.1]
    exact (List.append_nil _).symm
  | @woke trace w w' n body before idle ready world ih =>
    refine ih.next (.aside (fun o ho => by cases ho) rfl rfl) (Deed.does_woke world)
      (fun id => ?_) fun o ho => .inl ho
    rw [World.story, World.recorded_of_history_eq world.history]
    exact (List.append_nil _).symm
  | @rested trace w w' before world ih =>
    have hstory : ∀ id, w'.story id = w.story id := fun _ => World.recorded_of_history_eq world.history
    refine ⟨fun id => ?_, fun id hlater => ?_, fun t o ho id hid => ?_⟩
    · rw [hstory]
      exact ih.pursued id
    · rw [hstory]
      exact ih.later id (world.serial ▸ hlater)
    · rw [hstory]
      exact ih.said t o ho id hid

end Rounds

/-- What has become so far of a post that has selected its handlers. -/
theorem Run.pursues {β : Behaviour μ} {depth : Nat} {memory : μ} {body : Body μ α} {trace : Trace μ}
    {m : Machine μ α} (h : Run β depth memory body trace m) {id : PostId} {matched : List Invocation}
    (hselected : .selected id matched ∈ m.world.story id) :
    m.world.Pursues id matched (m.world.story id) := by
  have hpursued := (Rounds.charted h.rounds).pursued id
  generalize ((Rounds.conduct m.world).roll trace).gather (Rounds.progress id) = progress at hpursued
  cases hpursued with
  | ahead _ awaits => exact absurd hselected (awaits.unselected matched)
  | underway selected visits unanswered =>
    obtain rfl := selected matched hselected
    exact ⟨selected, visits ▸ List.prefix_append .., fun outcome hmem => absurd hmem (unanswered outcome)⟩
  | complete pursues => exact pursues.selected matched hselected ▸ pursues

end PubSub
