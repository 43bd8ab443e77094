import PubSub.Proofs.Bookkeeping
import PubSub.Proofs.Records
import PubSub.Proofs.Whereabouts

/-!
# The story of a post

Everything that is written down about one post comes from the thread that performs it, as long as the
post has handed no delivery to an executor. So what a thread knows of its activity is the whole story
of the post, and a post that has been answered has the story that its answer requires.
-/
namespace PubSub

open Activities

variable {μ α : Type}

theorem Declarations.nodup_topics (d : Declarations) (type : EventType) :
    (d.table type).topics.Nodup := by
  have hcollected : (d.collected type).topics.Nodup := by
    rw [collected, collectedBelow_eq]
    exact nodup_firstOccurrences _
  rw [table, Table.add]
  split
  · exact hcollected
  · rename_i hroot
    rw [Table.topics, List.map_append, List.nodup_append]
    refine ⟨hcollected, List.nodup_singleton _, ?_⟩
    rintro topic htopic _ hmem rfl
    rw [List.mem_singleton.mp hmem] at htopic
    exact hroot (List.contains_iff_mem.mpr htopic)

/-- What a thread learned from a deed is true of a later world. -/
def Deed.IsTrue (last : World μ) : Deed μ → Prop
  | .step s reply => Trusts last s reply
  | .took job => job.IsSound
  | .woke => True

theorem Outlook.isSound_of_trustsJob {O : Outlook} {job : Job} (h : O.TrustsJob job) :
    job.IsSound := by
  cases job with
  | delivery d executor => exact Outlook.Fits.carries h
  | work label body => trivial

theorem Activities.trusts_of_outlook {O : Outlook} {s : Step μ} {reply : s.Reply} {w w' last : World μ}
    (h : O.Trusts s reply) (hrun : s.run w = some (reply, w')) (hlast : last.BusesExtend w') :
    Trusts last s reply := by
  cases s with
  | readBus b =>
    obtain ⟨bus, hbus, heq⟩ := Option.map_eq_some_iff.mp hrun
    obtain ⟨rfl, rfl⟩ := Prod.mk.inj heq
    obtain ⟨bus', hbus', hext⟩ := hlast b bus hbus
    have hsame := World.bus_of_getElem? hbus'
    refine ⟨hsame ▸ hext.settings.symm, hsame ▸ hext.discipline.symm, ?_, ?_⟩
    · exact fun type table htable => (h.2.1 type table htable).2
    · exact fun topic x hx => (h.2.2 topic x hx).1
  | computeTable t b type =>
    cases hrun
    exact ⟨Declarations.nodup_topics _ _, h⟩
  | keepTable b type table => exact h.2
  | pick e place =>
    cases reply with
    | none => trivial
    | some job =>
      cases job with
      | delivery d executor => exact Outlook.Fits.carries h
      | work label body => trivial
  | _ => trivial

theorem Outlook.isTrue_of_lawful {O : Outlook} {trace : Trace μ} {w last : World μ}
    (h : O.protocol.Lawful trace w) (hcovers : O.Covers trace w) (hlast : last.BusesExtend w) :
    ∀ entry ∈ trace, entry.2.IsTrue last := by
  induction h with
  | start memory => exact List.forall_mem_nil _
  | step before allowed world ih =>
    have heffect := (Step.run_effect world).buses
    refine List.forall_mem_cons.mpr ⟨?_, ih (hcovers.earlier [_] heffect) (hlast.trans heffect)⟩
    exact trusts_of_outlook (trusts_step (grounded before) allowed.2 world hcovers) world hlast
  | took before idle jobs world ih =>
    have heffect := Step.buses_of_eq world.1
    refine List.forall_mem_cons.mpr ⟨?_, ih (hcovers.earlier [_] heffect) (hlast.trans heffect)⟩
    exact isSound_of_trustsJob ((grounded before).jobs _ (jobs.mem_iff.mpr List.mem_cons_self))
  | woke before idle ready world ih =>
    have heffect := Step.buses_of_eq world.buses
    exact List.forall_mem_cons.mpr
      ⟨trivial, ih (hcovers.earlier [_] heffect) (hlast.trans heffect)⟩
  | rested before world ih =>
    have heffect := Step.buses_of_eq world.buses
    exact ih (hcovers.earlier [] heffect) (hlast.trans heffect)

namespace Activities

theorem reliable (last : World μ) :
    (conduct last).Reliable fun trace _ => ∀ entry ∈ trace, entry.2.IsTrue last where
  earlier _ _ _ _ _ h := (List.forall_mem_append.mp h).2
  step _ _ _ _ _ _ h := h _ List.mem_cons_self
  job _ _ _ _ _ h := h _ List.mem_cons_self

end Activities

/-- In every run threads keep to the rules for their activities. -/
theorem Run.activities {β : Behaviour μ} {depth : Nat} {memory : μ} {body : Body μ α}
    {trace : Trace μ} {m : Machine μ α} (h : Run β depth memory body trace m) :
    (conduct m.world).Lawful trace m.world ∧ ∀ t, (conduct m.world).Orderly trace m t := by
  refine Conduct.Run.lawful (Activities.governs β depth body) (Activities.reliable m.world) h ?_
  exact Outlook.isTrue_of_lawful h.protocol.1 (Outlook.of_covers ..)
    fun b bus hbus => ⟨bus, hbus, .refl bus⟩

/-- The handlers that a post may select. -/
def IsSelection (id : PostId) (matched : List Invocation) : Prop :=
  ∃ b event found, matched = (deliveries id b event found).map Delivery.invocation

/-- What a deed that keeps to the rules does to the activities of its thread. -/
inductive Activities.Moves (last : World μ) (g g' : Activities) (deed : Deed μ) : Prop where
  | quiet (silent : deed.occurrence?.bind Occurrence.post? = none) (fresh : g'.fresh = g.fresh)
      (active : g'.active = g.active)
  | serial {id : PostId} (is : deed = .step .serial id) (fresh : g'.fresh = id :: g.fresh)
      (active : g'.active = g.active)
  | select {id : PostId} {matched : List Invocation}
      (tells : deed.occurrence? = some (.selected id matched)) (unused : id ∈ g.fresh)
      (selection : IsSelection id matched) (fresh : g'.fresh = g.fresh.erase id)
      (active : g'.active = .post id matched [] :: g.active)
  | submit {i : Invocation} {matched : List Invocation} {lines : List Occurrence} {rest : List Activity}
      (tells : deed.occurrence? = some (.submitted i))
      (before : g.active = .post i.post matched lines :: rest) (mem : i ∈ matched)
      (remote : IsRemote lines) (discipline : (last.bus i.bus).discipline ≠ .publisher)
      (fresh : g'.fresh = g.fresh)
      (active : g'.active = .post i.post matched (lines ++ [.submitted i]) :: rest)
  | write {i : Invocation} {o : Occurrence} {activity : Activity} {rest : List Activity}
      (tells : deed.occurrence? = some o) (about : o.invocation? = some i)
      (unsubmitted : o ≠ .submitted i) (before : g.active = activity :: rest) (admits : activity.Admits i)
      (fresh : g'.fresh = g.fresh) (active : g'.active = activity.write o ++ rest)
  | answer {id : PostId} {matched : List Invocation} {lines : List Occurrence} {outcome : Outcome}
      {rest : List Activity} (tells : deed.occurrence? = some (.answered id outcome))
      (before : g.active = .post id matched lines :: rest) (answers : last.Answers matched lines outcome)
      (fresh : g'.fresh = g.fresh) (active : g'.active = rest)
  | take {job : Job} (takes : deed = .took job ∨ ∃ e place, deed = .step (.pick e place) (some job))
      (fresh : g'.fresh = g.fresh) (active : g'.active = job.activities ++ g.active)

namespace Activities

variable {last : World μ}

theorem onTop_fresh (g : Activities) (change : Activity → List Activity) :
    (g.onTop change).fresh = g.fresh := by
  rw [onTop]
  split <;> rfl

theorem onTop_active {g : Activities} {activity : Activity} {rest : List Activity}
    (h : g.active = activity :: rest)
    (change : Activity → List Activity) : (g.onTop change).active = change activity ++ rest := by
  rw [onTop, h]

theorem exists_rest {g : Activities} {activity : Activity} (h : g.active.head? = some activity) :
    ∃ rest, g.active = activity :: rest := by
  obtain ⟨rest, hrest⟩ := List.head?_eq_some_iff.mp h
  exact ⟨rest, hrest⟩

theorem moves_record {g : Activities} {t : Thread} {o : Occurrence} (h : Vouches last g o) :
    Moves last g (g.write o) (.step (.record t o) ()) := by
  have hwrite : ∀ {i}, o.invocation? = some i → o ≠ .submitted i →
      g.write o = g.onTop (Activity.write o) → (∀ i, o.invocation? = some i →
        ∃ activity, g.active.head? = some activity ∧ activity.Admits i) →
      Moves last g (g.write o) (.step (.record t o) ()) := by
    intro i ho hnew heq hadmits
    obtain ⟨activity, hhead, hadmits⟩ := hadmits i ho
    obtain ⟨rest, hactive⟩ := exists_rest hhead
    rw [heq]
    exact .write rfl ho hnew hactive hadmits (onTop_fresh ..) (onTop_active hactive _)
  cases o with
  | selected id matched => exact .select rfl h.1 h.2 rfl rfl
  | answered id outcome =>
    obtain ⟨matched, lines, hhead, hanswers⟩ := h
    obtain ⟨rest, hactive⟩ := exists_rest hhead
    exact .answer rfl hactive hanswers (onTop_fresh ..) (onTop_active hactive _)
  | submitted i =>
    obtain ⟨matched, lines, hhead, hmem, hremote, hdiscipline⟩ := h
    obtain ⟨rest, hactive⟩ := exists_rest hhead
    exact .submit rfl hactive hmem hremote hdiscipline (onTop_fresh ..) (onTop_active hactive _)
  | called | ended | reported | dropped | settled => exact hwrite rfl nofun rfl h
  | _ => exact .quiet rfl rfl rfl

theorem moves_step {g : Activities} {s : Step μ} (h : Allows last g s) (reply : s.Reply) :
    Moves last g (g.after s reply) (.step s reply) := by
  cases s with
  | serial => exact .serial rfl rfl rfl
  | record t o => exact moves_record h
  | pick e place =>
    cases reply with
    | none => exact .quiet rfl rfl rfl
    | some job => exact .take (.inr ⟨e, place, rfl⟩) rfl rfl
  | _ => exact .quiet rfl rfl rfl

end Activities

/-- How far a thread has got with a post: it has the serial only, or is at work on the post. -/
inductive PostStage where
  | numbered
  | underway (matched : List Invocation) (lines : List Occurrence)

def Activity.stage? (id : PostId) : Activity → Option PostStage
  | .post id' matched lines => if id' = id then some (.underway matched lines) else none
  | .job _ => none

theorem Activity.stages_post (id id' : PostId) (matched : List Invocation) (lines : List Occurrence) :
    [Activity.post id' matched lines].filterMap (Activity.stage? id) =
      if id' = id then [.underway matched lines] else [] := by
  by_cases hid : id' = id <;> simp [stage?, hid]

def Activities.stages (id : PostId) (g : Activities) : List PostStage :=
  List.replicate (g.fresh.count id) .numbered ++ g.active.filterMap (Activity.stage? id)

/-- What a deed says about a post. -/
def Deed.tells (id : PostId) (deed : Deed μ) : List Occurrence :=
  deed.occurrence?.toList.filter (·.post? = some id)

/-- What changes in what there is for a post. -/
inductive Activities.Changes (last : World μ) (g : Activities) (id : PostId) (deed : Deed μ) :
    List PostStage → List PostStage → Prop where
  | idle (silent : deed.tells id = []) : Changes last g id deed [] []
  | number (is : deed = .step .serial id) : Changes last g id deed [] [.numbered]
  | select {matched : List Invocation} (tells : deed.tells id = [.selected id matched])
      (selection : IsSelection id matched) :
      Changes last g id deed [.numbered] [.underway matched []]
  | submit {i : Invocation} {matched : List Invocation} {lines : List Occurrence}
      (tells : deed.tells id = [.submitted i]) (mem : i ∈ matched) (remote : IsRemote lines)
      (discipline : (last.bus i.bus).discipline ≠ .publisher) :
      Changes last g id deed [.underway matched lines] [.underway matched (lines ++ [.submitted i])]
  | write {i : Invocation} {o : Occurrence} {matched : List Invocation} {lines : List Occurrence}
      (tells : deed.tells id = [o]) (about : o.invocation? = some i) (unsubmitted : o ≠ .submitted i)
      (admits : IsLocal lines ∨ IsRemote lines ∧ .submitted i ∈ lines) :
      Changes last g id deed [.underway matched lines] [.underway matched (lines ++ [o])]
  | answer {matched : List Invocation} {lines : List Occurrence} {outcome : Outcome}
      (tells : deed.tells id = [.answered id outcome]) (answers : last.Answers matched lines outcome) :
      Changes last g id deed [.underway matched lines] []
  | work {i : Invocation} {o : Occurrence} (tells : deed.tells id = [o])
      (about : o.invocation? = some i) (post : i.post = id) (job : .job i ∈ g.active) :
      Changes last g id deed [] []

namespace Activities

variable {last : World μ}

theorem tells_of {deed : Deed μ} {o : Occurrence} {id : PostId} (h : deed.occurrence? = some o) :
    deed.tells id = if o.post? = some id then [o] else [] := by
  rw [Deed.tells, h]
  by_cases ho : o.post? = some id <;> simp [ho]

theorem stages_eq {g g' : Activities} (hfresh : g'.fresh = g.fresh) (hactive : g'.active = g.active)
    (id : PostId) : g'.stages id = g.stages id := by
  rw [stages, stages, hfresh, hactive]

/-- The latest activity is replaced. -/
theorem stages_top {g g' : Activities} {rest : List Activity} (hfresh : g'.fresh = g.fresh)
    (activity activity' : List Activity) (hbefore : g.active = activity ++ rest)
    (hactive : g'.active = activity' ++ rest) (id : PostId) :
    ∃ common, (g.stages id).Perm (activity.filterMap (Activity.stage? id) ++ common) ∧
      (g'.stages id).Perm (activity'.filterMap (Activity.stage? id) ++ common) := by
  refine ⟨List.replicate (g.fresh.count id) .numbered ++ rest.filterMap (Activity.stage? id), ?_, ?_⟩
  · rw [stages, hbefore, List.filterMap_append]
    exact List.perm_append_comm_assoc ..
  · rw [stages, hfresh, hactive, List.filterMap_append]
    exact List.perm_append_comm_assoc ..

/-- One stage of the post changes at most, and the deed says so. -/
def ChangesOne (last : World μ) (g g' : Activities) (deed : Deed μ) (id : PostId) : Prop :=
  ∃ before after common, (g.stages id).Perm (before ++ common) ∧ (g'.stages id).Perm (after ++ common) ∧
    Changes last g id deed before after

section ChangesOne

variable {g g' : Activities} {deed : Deed μ} {id id' : PostId}

theorem changesOne_idle (hfresh : g'.fresh = g.fresh) (hactive : g'.active = g.active)
    (htells : deed.tells id = []) : ChangesOne last g g' deed id :=
  ⟨[], [], _, .refl _, stages_eq hfresh hactive id ▸ .refl _, .idle htells⟩

theorem changesOne_serial (hfresh : g'.fresh = id' :: g.fresh) (hactive : g'.active = g.active) :
    ChangesOne last g g' (.step .serial id') id := by
  by_cases hid : id' = id
  · subst hid
    refine ⟨[], [.numbered], g.stages id', .refl _, ?_, .number rfl⟩
    rw [stages, hfresh, hactive, List.count_cons_self]
    exact .refl _
  · refine ⟨[], [], g.stages id, .refl _, ?_, .idle rfl⟩
    rw [stages, stages, hfresh, hactive, List.count_cons_of_ne hid]
    exact .refl _

/-- With a serial that has not been used an activity begins. -/
theorem changesOne_select {matched : List Invocation}
    (tells : deed.occurrence? = some (.selected id' matched)) (unused : id' ∈ g.fresh)
    (selection : IsSelection id' matched) (hfresh : g'.fresh = g.fresh.erase id')
    (hactive : g'.active = .post id' matched [] :: g.active) : ChangesOne last g g' deed id := by
  by_cases hid : id' = id
  · subst hid
    obtain ⟨n, hn⟩ := Nat.exists_eq_add_one_of_ne_zero (Nat.ne_of_gt (List.count_pos_iff.mpr unused))
    refine ⟨[.numbered], [.underway matched []],
        List.replicate n .numbered ++ g.active.filterMap (Activity.stage? id'),
      ?_, ?_, .select ((tells_of tells).trans (if_pos rfl)) selection⟩
    · rw [stages, hn]
      exact .refl _
    · rw [stages, hfresh, hactive, List.count_erase_self, hn, Nat.add_one_sub_one,
        ← List.singleton_append,
        List.filterMap_append, Activity.stages_post, if_pos rfl]
      exact List.perm_append_comm_assoc ..
  · have hsilent : deed.tells id = [] :=
      (tells_of tells).trans (if_neg fun heq => hid (Option.some.inj heq))
    refine ⟨[], [], g.stages id, .refl _, ?_, .idle hsilent⟩
    rw [stages, stages, hfresh, hactive, List.count_erase_of_ne (Ne.symm hid), ← List.singleton_append,
      List.filterMap_append, Activity.stages_post, if_neg hid]
    exact .refl _

/-- The latest activity, which is a post, changes or is over, and the deed is about that post. -/
theorem changesOne_top (activity' : List Activity) {o : Occurrence} (tells : deed.occurrence? = some o)
    (hpost : o.post? = some id') {matched : List Invocation} {lines : List Occurrence}
    {rest : List Activity}
    (hfresh : g'.fresh = g.fresh) (before : g.active = .post id' matched lines :: rest)
    (hactive : g'.active = activity' ++ rest)
    (hother : id' ≠ id → activity'.filterMap (Activity.stage? id) = [])
    (hmine : id' = id → deed.tells id = [o] →
      Changes last g id deed [.underway matched lines] (activity'.filterMap (Activity.stage? id))) :
    ChangesOne last g g' deed id := by
  obtain ⟨common, hbefore, hafter⟩ := stages_top hfresh [_] activity' before hactive id
  have htells : deed.tells id = if some id' = some id then [o] else [] := hpost ▸ tells_of tells
  by_cases hid : id' = id
  · rw [if_pos (congrArg some hid)] at htells
    rw [Activity.stages_post, if_pos hid] at hbefore
    exact ⟨_, _, common, hbefore, hafter, hmine hid htells⟩
  · rw [if_neg fun heq => hid (Option.some.inj heq)] at htells
    rw [Activity.stages_post, if_neg hid] at hbefore
    rw [hother hid] at hafter
    exact ⟨_, _, common, hbefore, hafter, .idle htells⟩

/-- A job writes nothing about a post that its thread is at work on. -/
theorem changesOne_work {i : Invocation} {o : Occurrence} {rest : List Activity}
    (tells : deed.occurrence? = some o) (about : o.invocation? = some i)
    (hfresh : g'.fresh = g.fresh) (before : g.active = .job i :: rest)
    (hactive : g'.active = (Activity.job i).write o ++ rest) : ChangesOne last g g' deed id := by
  obtain ⟨common, hbefore, hafter⟩ := stages_top hfresh [_] _ before hactive id
  have hnone : ((Activity.job i).write o).filterMap (Activity.stage? id) = [] := by cases o <;> rfl
  rw [hnone] at hafter
  refine ⟨[], [], common, hbefore, hafter, ?_⟩
  have htells : deed.tells id = if some i.post = some id then [o] else [] :=
    Occurrence.post?_of_invocation? about ▸ tells_of tells
  by_cases hid : i.post = id
  · exact .work (htells.trans (if_pos (congrArg some hid))) about hid (before ▸ List.mem_cons_self)
  · exact .idle (htells.trans (if_neg fun heq => hid (Option.some.inj heq)))

end ChangesOne

/-- A step changes one stage of one post at most. -/
theorem Moves.changes {g g' : Activities} {deed : Deed μ} (h : Moves last g g' deed) (id : PostId) :
    ChangesOne last g g' deed id := by
  cases h with
  | quiet silent fresh active =>
    refine changesOne_idle fresh active ?_
    cases ho : deed.occurrence? with
    | none => rw [Deed.tells, ho]; rfl
    | some o =>
      rw [ho, Option.bind_some] at silent
      rw [tells_of ho, silent]
      exact if_neg nofun
  | serial is fresh active =>
    subst is
    exact changesOne_serial fresh active
  | select tells unused selection fresh active =>
    exact changesOne_select tells unused selection fresh active
  | submit tells before mem remote discipline fresh active =>
    refine changesOne_top [_] tells rfl fresh before active (fun hid => ?_) fun hid htells => ?_
    · rw [Activity.stages_post, if_neg hid]
    · rw [Activity.stages_post, if_pos hid]
      exact .submit htells mem remote discipline
  | @write i o activity rest tells about unsubmitted before admits fresh active =>
    cases activity with
    | job j =>
      obtain rfl : j = i := admits
      exact changesOne_work tells about fresh before active
    | post id' matched lines =>
      obtain ⟨hpost, hadmits⟩ := admits
      have hsame := hpost ▸ Occurrence.post?_of_invocation? about
      refine changesOne_top _ tells hsame fresh before active (fun hid => ?_) fun hid htells => ?_
      · rw [Activity.write, Activity.stages_post, if_neg hid]
      · rw [Activity.write, Activity.stages_post, if_pos hid]
        exact .write htells about unsubmitted hadmits
  | answer tells before answers fresh active =>
    refine changesOne_top [] tells rfl fresh before active (fun _ => rfl) fun hid htells => ?_
    subst hid
    exact .answer htells answers
  | @take job takes fresh active =>
    refine ⟨[], [], g.stages id, .refl _, ?_, .idle ?_⟩
    · have hjob : job.activities.filterMap (Activity.stage? id) = [] := by cases job <;> rfl
      rw [stages, stages, fresh, active, List.filterMap_append, hjob]
      exact .refl _
    · rcases takes with rfl | ⟨e, place, rfl⟩ <;> rfl

end Activities

/-- The story after its beginning, of a post that has handed a delivery to an executor, given what
there is for the post. -/
structure Handed (last : World μ) (id : PostId) (stages : List PostStage) (matched : List Invocation)
    (lines : List Occurrence) : Prop where
  selection : IsSelection id matched
  exists_submitted : ∃ i ∈ matched, (last.bus i.bus).discipline ≠ .publisher ∧ .submitted i ∈ lines
  isRemote : IsRemote lines
  stages_subset : ∀ stage ∈ stages, ∃ matched own, stage = .underway matched own ∧ own ⊆ lines ∧
    ∃ i, .submitted i ∈ own
  calm : ∀ payload, .answered id (.panicked payload) ∉ lines

/-- What there is for a post, and its story so far. Only once the post has handed a delivery to an
executor can other threads have written a part of the story. -/
inductive Kept (last : World μ) (id : PostId) : List PostStage → List Occurrence → Prop where
  | unborn : Kept last id [] []
  | numbered : Kept last id [.numbered] []
  | started {matched : List Invocation} {lines : List Occurrence}
      (selection : IsSelection id matched) (isLocal : IsLocal lines)
      (about : ∀ o ∈ lines, o.invocation?.isSome) :
      Kept last id [.underway matched lines] (.selected id matched :: lines)
  | answered {matched : List Invocation} {lines : List Occurrence} {outcome : Outcome}
      (selection : IsSelection id matched) (isLocal : IsLocal lines)
      (answers : last.Answers matched lines outcome) :
      Kept last id [] (.selected id matched :: (lines ++ [.answered id outcome]))
  | handed {stages : List PostStage} {matched : List Invocation} {lines : List Occurrence}
      (handed : Handed last id stages matched lines) :
      Kept last id stages (.selected id matched :: lines)

section Kept

variable {last : World μ} {id : PostId} {stages stages' : List PostStage} {matched : List Invocation}
  {lines story : List Occurrence}

theorem Handed.of_stages (h : Handed last id stages matched lines)
    (hstages : ∀ stage ∈ stages', stage ∈ stages ∨ ∃ matched own, stage = .underway matched own ∧
      own ⊆ lines ∧ ∃ i, .submitted i ∈ own) : Handed last id stages' matched lines :=
  { h with
    stages_subset := fun stage hstage => (hstages stage hstage).elim (h.stages_subset stage) fun h => h }

/-- The story goes on about what has been handed over. -/
theorem Handed.append (h : Handed last id stages matched lines) {o : Occurrence}
    (ho : ∀ i, o.invocation? = some i → .submitted i ∈ lines ++ [o])
    (hcalm : ∀ payload, o ≠ .answered id (.panicked payload)) :
    Handed last id stages matched (lines ++ [o]) := by
  obtain ⟨i, hi, hdiscipline, hsubmitted⟩ := h.exists_submitted
  refine ⟨h.selection, ⟨i, hi, hdiscipline, List.mem_append_left _ hsubmitted⟩, h.isRemote.append ho,
    ?_, ?_⟩
  · intro stage hstage
    obtain ⟨matched, own, heq, hsubset, hown⟩ := h.stages_subset stage hstage
    exact ⟨matched, own, heq, List.subset_append_of_subset_left _ hsubset, hown⟩
  · intro payload hmem
    rcases List.mem_append.mp hmem with hold | hnew
    · exact h.calm payload hold
    · exact hcalm payload (List.mem_singleton.mp hnew).symm

theorem Kept.perm (h : Kept last id stages story) (hperm : stages'.Perm stages) :
    Kept last id stages' story := by
  cases h with
  | unborn => exact hperm.eq_nil ▸ .unborn
  | numbered => exact List.perm_singleton.mp hperm ▸ .numbered
  | started selection isLocal about =>
    exact List.perm_singleton.mp hperm ▸ .started selection isLocal about
  | answered selection isLocal answers => exact hperm.eq_nil ▸ .answered selection isLocal answers
  | handed h => exact .handed (h.of_stages fun stage hstage => .inl (hperm.mem_iff.mp hstage))

/-- What a thread has written during a post is a part of the story. -/
theorem Kept.subset {own : List Occurrence} (h : Kept last id stages story)
    (hown : .underway matched own ∈ stages) : own ⊆ story := by
  cases h with
  | unborn => cases hown
  | numbered => cases List.mem_singleton.mp hown
  | started =>
    cases List.mem_singleton.mp hown
    exact List.subset_cons_self ..
  | answered => cases hown
  | handed h =>
    obtain ⟨_, _, heq, hsubset, -⟩ := h.stages_subset _ hown
    cases heq
    exact List.subset_cons_of_subset _ hsubset

/-- A post that has handed a delivery over does not end in a panic. -/
theorem calm_of_answers {outcome : Outcome} {i : Invocation} {own : List Occurrence}
    (h : .submitted i ∈ own) (hanswers : last.Answers matched own outcome) :
    ∀ payload, outcome ≠ .panicked payload := by
  cases hanswers with
  | handedOver _ calm => exact calm
  | dispatched =>
    obtain ⟨x, -, hx⟩ := List.mem_flatMap.mp h
    exact absurd hx (isLocal_told x i)

/-- What a thread has written during a post is all its story, or a part of it. -/
theorem Kept.of_underway {own : List Occurrence} {rest : List PostStage}
    (h : Kept last id (.underway matched own :: rest) story) :
    (rest = [] ∧ story = .selected id matched :: own ∧ IsSelection id matched ∧ IsLocal own ∧
      ∀ o ∈ own, o.invocation?.isSome) ∨
    ∃ matched' lines, story = .selected id matched' :: lines ∧
      Handed last id (.underway matched own :: rest) matched' lines ∧
      own ⊆ lines ∧ ¬ IsLocal own := by
  cases h with
  | started selection isLocal about => exact .inl ⟨rfl, rfl, selection, isLocal, about⟩
  | handed h =>
    obtain ⟨_, _, heq, hsubset, i, hi⟩ := h.stages_subset _ List.mem_cons_self
    cases heq
    exact .inr ⟨_, _, rfl, h, hsubset, fun hlocal => hlocal i hi⟩

theorem ne_answered {o : Occurrence} {i : Invocation} (ho : o.invocation? = some i)
    (outcome : Outcome) : o ≠ .answered id outcome := by
  rintro rfl
  cases ho

theorem Handed.write {matched' : List Invocation} {own : List Occurrence} {rest : List PostStage}
    (h : Handed last id (.underway matched own :: rest) matched' lines) (hsubset : own ⊆ lines)
    {i : Invocation} {o : Occurrence} (ho : o.invocation? = some i) (hi : .submitted i ∈ own ++ [o]) :
    Handed last id (.underway matched (own ++ [o]) :: rest) matched' (lines ++ [o]) := by
  have hown : own ++ [o] ⊆ lines ++ [o] :=
    List.append_subset.mpr ⟨List.subset_append_of_subset_left _ hsubset, List.subset_append_right ..⟩
  have happend : Handed last id (.underway matched own :: rest) matched' (lines ++ [o]) := by
    refine h.append (fun j hj => ?_) fun payload => ne_answered ho _
    rw [ho] at hj
    cases hj
    exact hown hi
  refine happend.of_stages fun stage hstage => ?_
  rcases List.mem_cons.mp hstage with rfl | hrest
  · exact .inr ⟨matched, _, rfl, hown, i, hi⟩
  · exact .inl (List.mem_cons_of_mem _ hrest)

/-- The first delivery is handed over. -/
theorem handed_of_first {i : Invocation} {own : List Occurrence} (hmem : i ∈ matched)
    (hdiscipline : (last.bus i.bus).discipline ≠ .publisher) (hremote : IsRemote own)
    (hselection : IsSelection id matched) (habout : ∀ o ∈ own, o.invocation?.isSome) :
    Handed last id [.underway matched (own ++ [.submitted i])] matched (own ++ [.submitted i]) := by
  have hi : .submitted i ∈ own ++ [.submitted i] :=
    List.mem_append_right _ (List.mem_singleton_self _)
  refine ⟨hselection, ⟨i, hmem, hdiscipline, hi⟩, hremote.append_singleton rfl hi, ?_, ?_⟩
  · rintro _ hstage
    cases List.mem_singleton.mp hstage
    exact ⟨matched, _, rfl, List.Subset.refl _, i, hi⟩
  · intro payload hanswered
    rcases List.mem_append.mp hanswered with hold | hnew
    · cases habout _ hold
    · cases List.mem_singleton.mp hnew

/-- Nothing is handed over but by a post that has begun to hand over. -/
theorem Kept.exists_handed (h : Kept last id stages story) {i : Invocation}
    (hi : .submitted i ∈ story) : ∃ matched lines, story = .selected id matched :: lines ∧
      Handed last id stages matched lines ∧ .submitted i ∈ lines := by
  cases h with
  | unborn => cases hi
  | numbered => cases hi
  | started _ isLocal _ =>
    rcases List.mem_cons.mp hi with heq | hi
    · cases heq
    · exact absurd hi (isLocal i)
  | answered _ isLocal _ =>
    rcases List.mem_cons.mp hi with heq | hi
    · cases heq
    rcases List.mem_append.mp hi with hi | hi
    · exact absurd hi (isLocal i)
    · cases List.mem_singleton.mp hi
  | handed h =>
    rcases List.mem_cons.mp hi with heq | hi
    · cases heq
    · exact ⟨_, _, rfl, h, hi⟩

theorem Kept.next {g : Activities} {deed : Deed μ} {before after rest : List PostStage}
    (h : Kept last id (before ++ rest) story) (hchanges : Changes last g id deed before after)
    (hnew : deed = .step .serial id → before ++ rest = [] ∧ story = [])
    (hjobs : ∀ i, .job i ∈ g.active → i.post = id → .submitted i ∈ story) :
    Kept last id (after ++ rest) (story ++ deed.tells id) := by
  cases hchanges with
  | idle silent =>
    rw [silent, List.append_nil]
    exact h
  | number is =>
    obtain ⟨hnil, rfl⟩ := hnew is
    obtain rfl : rest = [] := hnil
    subst is
    exact .numbered
  | select tells selection =>
    rw [tells]
    cases h with
    | numbered => exact .started selection (fun _ => List.not_mem_nil) (List.forall_mem_nil _)
    | handed h =>
      obtain ⟨_, _, heq, -⟩ := h.stages_subset _ List.mem_cons_self
      cases heq
  | submit tells mem remote discipline =>
    rw [tells]
    rcases h.of_underway with ⟨rfl, rfl, selection, -, about⟩ | ⟨_, _, rfl, h, hsubset, -⟩
    · exact .handed (handed_of_first mem discipline remote selection about)
    · exact .handed (h.write hsubset rfl (List.mem_append_right _ (List.mem_singleton_self _)))
  | @write i o matched own tells about unsubmitted admits =>
    rw [tells]
    rcases h.of_underway with ⟨rfl, rfl, selection, isLocal, all⟩ | ⟨_, _, rfl, h, hsubset, hremote⟩
    · refine .started selection (isLocal_append isLocal fun j hj => ?_) ?_
      · cases List.mem_singleton.mp hj
        cases about
        exact unsubmitted rfl
      · refine List.forall_mem_append.mpr ⟨all, List.forall_mem_singleton.mpr ?_⟩
        rw [about]
        rfl
    · rcases admits with hlocal | ⟨-, hi⟩
      · exact absurd hlocal hremote
      · exact .handed (h.write hsubset about (List.mem_append_left _ hi))
  | @answer matched own outcome tells answers =>
    rw [tells]
    rcases h.of_underway with ⟨rfl, rfl, selection, isLocal, -⟩ | ⟨_, _, rfl, h, hsubset, hremote⟩
    · exact .answered selection isLocal answers
    · obtain ⟨i, hi⟩ := not_forall_not.mp hremote
      have happend := h.append (o := .answered id outcome) nofun fun payload heq =>
        calm_of_answers hi answers payload (Occurrence.answered.inj heq).2
      exact .handed (happend.of_stages fun stage hstage => .inl (List.mem_cons_of_mem _ hstage))
  | @work i o tells about post job =>
    rw [tells]
    obtain ⟨matched, lines, rfl, h, hi⟩ := h.exists_handed (hjobs i job post)
    refine .handed (h.append (fun j hj => ?_) fun payload => ne_answered about _)
    rw [about] at hj
    cases hj
    exact List.mem_append_left _ hi

end Kept

/-- A job that a thread takes. -/
def Deed.Takes (deed : Deed μ) (job : Job) : Prop :=
  deed = .took job ∨ ∃ e place, deed = .step (.pick e place) (some job)

/-- Every post has the story that its stages allow, and jobs belong to deliveries that have been handed
over. -/
structure Recounted (last : World μ) (trace : Trace μ) (w : World μ) : Prop where
  kept : ∀ id, Kept last id (((conduct last).roll trace).gather (stages id)) (w.story id)
  later : ∀ id, w.serial ≤ id →
    ((conduct last).roll trace).gather (stages id) = [] ∧ w.story id = []
  jobs : ∀ d executor, .delivery d executor ∈ w.jobs →
    .submitted d.invocation ∈ w.story d.invocation.post
  active : ∀ t i, .job i ∈ ((conduct last).standing trace t).active → .submitted i ∈ w.story i.post

section Recounted

variable {last : World μ} {trace : Trace μ} {w w' : World μ}

theorem Activities.Moves.job_mem {g g' : Activities} {deed : Deed μ} (h : Moves last g g' deed)
    {i : Invocation} (hi : .job i ∈ g'.active) :
    .job i ∈ g.active ∨ ∃ d executor, deed.Takes (.delivery d executor) ∧ d.invocation = i := by
  cases h with
  | quiet _ _ active => exact .inl (active ▸ hi)
  | serial _ _ active => exact .inl (active ▸ hi)
  | select _ _ _ _ active =>
    rw [active] at hi
    rcases List.mem_cons.mp hi with heq | hi
    · cases heq
    · exact .inl hi
  | submit _ before _ _ _ _ active =>
    rw [active] at hi
    rcases List.mem_cons.mp hi with heq | hi
    · cases heq
    · exact .inl (before ▸ List.mem_cons_of_mem _ hi)
  | @write _ o activity rest _ _ _ before _ _ active =>
    rw [active] at hi
    rcases List.mem_append.mp hi with hi | hi
    · refine .inl (before ▸ List.mem_cons.mpr (.inl ?_))
      cases activity with
      | post id matched lines => cases List.mem_singleton.mp hi
      | job j =>
        have hstays : Activity.write o (.job j) ⊆ [.job j] := by
          cases o <;> simp [Activity.write]
        exact List.mem_singleton.mp (hstays hi)
    · exact .inl (before ▸ List.mem_cons_of_mem _ hi)
  | answer _ before _ _ active =>
    rw [active] at hi
    exact .inl (before ▸ List.mem_cons_of_mem _ hi)
  | @take job takes _ active =>
    rw [active] at hi
    rcases List.mem_append.mp hi with hi | hi
    · cases job with
      | delivery d executor =>
        cases List.mem_singleton.mp hi
        exact .inr ⟨d, executor, takes, rfl⟩
      | work label body => cases hi
    · exact .inl hi

theorem recounted_start (last : World μ) (memory : μ) : Recounted last [] (.start memory) :=
  ⟨fun _ => .unborn, fun _ _ => ⟨rfl, rfl⟩, fun _ _ => nofun, fun _ _ => nofun⟩

theorem stages_base (id : PostId) (t : Turn) : stages id ((conduct last).base t) = [] := rfl

/-- What goes with a post that a thread is at work on is a part of the story of the post. -/
theorem Recounted.subset (h : Recounted last trace w) {t : Turn} {id : PostId}
    {matched : List Invocation} {lines : List Occurrence}
    (hactivity : .post id matched lines ∈ ((conduct last).standing trace t).active) :
    lines ⊆ w.story id := by
  obtain ⟨others, hgather, -⟩ := Roll.gather_put (f := stages id) ((conduct last).roll trace)
    ((conduct last).standing trace t) (stages_base id t)
  have hstage : .underway matched lines ∈ stages id ((conduct last).standing trace t) :=
    List.mem_append_right _ (List.mem_filterMap.mpr ⟨_, hactivity, if_pos rfl⟩)
  exact (h.kept id).subset (hgather.mem_iff.mpr (List.mem_append_left _ hstage))

section Next

variable {t : Turn} {deed : Deed μ}

/-- A deed changes one stage of a post at most, among all threads. -/
theorem Activities.Moves.gather (hmoves : Moves last ((conduct last).standing trace t)
      ((conduct last).next t ((conduct last).standing trace t) deed) deed) (id : PostId) :
    ∃ before after rest, (((conduct last).roll trace).gather (stages id)).Perm (before ++ rest) ∧
      (((conduct last).roll ((t, deed) :: trace)).gather (stages id)).Perm (after ++ rest) ∧
      Changes last ((conduct last).standing trace t) id deed before after := by
  obtain ⟨before, after, common, hwas, his, hchanges⟩ := hmoves.changes id
  obtain ⟨others, hbefore, hafter⟩ := Roll.gather_put (f := stages id) ((conduct last).roll trace)
    ((conduct last).next t ((conduct last).standing trace t) deed) (stages_base id t)
  refine ⟨before, after, common ++ others, ?_, ?_, hchanges⟩
  · rw [← List.append_assoc]
    exact hbefore.trans (hwas.append_right others)
  · rw [← List.append_assoc]
    exact hafter.trans (his.append_right others)

theorem Recounted.kept_next (h : Recounted last trace w)
    (hmoves : Moves last ((conduct last).standing trace t)
      ((conduct last).next t ((conduct last).standing trace t) deed) deed)
    (hdoes : deed.Does w w') (hstory : ∀ id, w'.story id = w.story id ++ deed.tells id) (id : PostId) :
    Kept last id (((conduct last).roll ((t, deed) :: trace)).gather (stages id)) (w'.story id) := by
  obtain ⟨before, after, rest, hbefore, hafter, hchanges⟩ := hmoves.gather id
  rw [hstory]
  refine (((h.kept id).perm hbefore.symm).next hchanges (fun hdeed => ?_) (fun i hi => ?_)).perm hafter
  · obtain ⟨hnone, hsilent⟩ := h.later id (Nat.le_of_eq (hdoes.numbered id hdeed).1.symm)
    rw [hnone] at hbefore
    exact ⟨hbefore.symm.eq_nil, hsilent⟩
  · rintro rfl
    exact h.active t i hi

/-- A post that has no number yet has nothing. -/
theorem Recounted.later_next (h : Recounted last trace w)
    (hmoves : Moves last ((conduct last).standing trace t)
      ((conduct last).next t ((conduct last).standing trace t) deed) deed)
    (hdoes : deed.Does w w') (hstory : ∀ id, w'.story id = w.story id ++ deed.tells id) {id : PostId}
    (hlater : w'.serial ≤ id) :
    ((conduct last).roll ((t, deed) :: trace)).gather (stages id) = [] ∧ w'.story id = [] := by
  obtain ⟨hnone, hsilent⟩ := h.later id (Nat.le_trans hdoes.later hlater)
  obtain ⟨before, after, rest, hbefore, hafter, hchanges⟩ := hmoves.gather id
  rw [hnone] at hbefore
  obtain ⟨rfl, rfl⟩ := List.append_eq_nil_iff.mp hbefore.symm.eq_nil
  rw [hstory, hsilent]
  cases hchanges with
  | idle silent =>
    rw [silent]
    exact ⟨hafter.eq_nil, rfl⟩
  | number is =>
    obtain ⟨rfl, hserial⟩ := hdoes.numbered id is
    omega
  | work tells about post job =>
    have hmem := h.active t _ job
    rw [post, hsilent] at hmem
    cases hmem

theorem Recounted.next (h : Recounted last trace w)
    (hmoves : Moves last ((conduct last).standing trace t)
      ((conduct last).next t ((conduct last).standing trace t) deed) deed)
    (hdoes : deed.Does w w') (hstory : ∀ id, w'.story id = w.story id ++ deed.tells id)
    (htakes : ∀ job, deed.Takes job → job ∈ w.jobs)
    (hjobs : ∀ d executor, .delivery d executor ∈ w'.jobs → .delivery d executor ∈ w.jobs ∨
      ∃ id matched lines, .post id matched lines ∈ ((conduct last).standing trace t).active ∧
        .submitted d.invocation ∈ lines) :
    Recounted last ((t, deed) :: trace) w' := by
  have hgrows : ∀ {id} {o : Occurrence}, o ∈ w.story id → o ∈ w'.story id := fun {id} o ho =>
    hstory id ▸ List.mem_append_left _ ho
  refine ⟨h.kept_next hmoves hdoes hstory, fun id => h.later_next hmoves hdoes hstory, ?_, ?_⟩
  · intro d executor hd
    rcases hjobs d executor hd with hold | ⟨id, matched, lines, hactivity, hd⟩
    · exact hgrows (h.jobs d executor hold)
    · have hmem := h.subset hactivity hd
      have hpost := (World.mem_story.mp hmem).2
      cases hpost
      exact hgrows hmem
  · intro u i hi
    rw [Conduct.standing_cons] at hi
    split at hi
    · rename_i hu
      subst hu
      rcases hmoves.job_mem hi with hold | ⟨d, executor, htake, rfl⟩
      · exact hgrows (h.active u i hold)
      · exact hgrows (h.jobs d executor (htakes _ htake))
    · exact hgrows (h.active u i hi)

end Next

/-- An executor stores no job that it has not been handed. -/
theorem mem_jobs_of_step {s : Step μ} {reply : s.Reply} {g : Activities} (hallows : Allows last g s)
    (hrun : s.run w = some (reply, w')) {d : Delivery} {executor : String}
    (hd : .delivery d executor ∈ w'.jobs) :
    .delivery d executor ∈ w.jobs ∨ ∃ id matched lines, .post id matched lines ∈ g.active ∧
      .submitted d.invocation ∈ lines := by
  have hmem := (Step.run_effect hrun).jobs.mem_iff.mp (List.mem_append_right _ hd)
  rcases List.mem_append.mp hmem with hgained | hold
  · have hhands : ∀ job, .delivery d executor ∈ [job] → g.Hands job → ∃ id matched lines,
        .post id matched lines ∈ g.active ∧ .submitted d.invocation ∈ lines := by
      rintro job hjob hhands
      obtain rfl := List.mem_singleton.mp hjob
      obtain ⟨id, matched, lines, hhead, hsubmitted⟩ := hhands
      exact ⟨id, matched, lines, List.mem_of_head? hhead, hsubmitted⟩
    cases s with
    | offer e job =>
      cases reply with
      | false => cases hgained
      | true => exact .inr (hhands job hgained hallows)
    | send e job =>
      cases reply with
      | false => cases hgained
      | true => exact .inr (hhands job hgained hallows)
    | openExecutor x =>
      have hnone : x.jobs = [] := hallows
      rw [Step.gained, hnone] at hgained
      cases hgained
    | _ => cases hgained
  · exact .inl hold

theorem mem_jobs_of_takes {s : Step μ} {reply : s.Reply} (hrun : s.run w = some (reply, w'))
    {job : Job} (htakes : Deed.Takes (.step s reply) job) : job ∈ w.jobs := by
  rcases htakes with heq | ⟨e, place, heq⟩
  · cases heq
  · cases heq
    exact (Step.run_effect hrun).jobs.mem_iff.mp (List.mem_append_left _ List.mem_cons_self)

theorem Recounted.of_alike (h : Recounted last trace w) (halike : w.Alike w') :
    Recounted last trace w' := by
  have hstory : ∀ id, w'.story id = w.story id := fun _ =>
    World.recorded_of_history_eq halike.history
  refine ⟨fun id => hstory id ▸ h.kept id, fun id hlater => ?_, fun d executor hd => ?_, fun t i hi => ?_⟩
  · rw [hstory]
    exact h.later id (halike.serial ▸ hlater)
  · rw [hstory]
    exact h.jobs d executor (halike.jobs.mem_iff.mp hd)
  · rw [hstory]
    exact h.active t i hi

theorem recounted (h : (conduct last).Lawful trace w) : Recounted last trace w := by
  induction h with
  | start memory => exact recounted_start last memory
  | @step trace w w' t s reply before allowed world ih =>
    refine ih.next (moves_step allowed reply) (Deed.does_step world) (fun id => ?_)
      (fun job => mem_jobs_of_takes world) fun d executor => mem_jobs_of_step allowed world
    exact Step.recorded_run world fun _ _ _ => rfl
  | @took trace w w' e i job before idle jobs world ih =>
    refine ih.next (.take (.inl rfl) rfl rfl) (Deed.does_took jobs world) (fun id => ?_) ?_ ?_
    · rw [World.story, World.recorded_of_history_eq world.2.1]
      exact (List.append_nil _).symm
    · rintro job' (heq | ⟨e', place, heq⟩)
      · cases heq
        exact jobs.mem_iff.mpr List.mem_cons_self
      · cases heq
    · exact fun d executor hd => .inl (jobs.mem_iff.mpr (List.mem_cons_of_mem _ hd))
  | @woke trace w w' n body before idle ready world ih =>
    refine ih.next (.quiet rfl rfl rfl) (Deed.does_woke world) (fun id => ?_) ?_ ?_
    · rw [World.story, World.recorded_of_history_eq world.history]
      exact (List.append_nil _).symm
    · rintro job (heq | ⟨e, place, heq⟩) <;> cases heq
    · exact fun d executor hd => .inl (world.jobs.mem_iff.mp hd)
  | rested before world ih => exact ih.of_alike world

end Recounted

/-- In every run every post has the story that fits what its thread has in hand. -/
theorem Run.recounted {β : Behaviour μ} {depth : Nat} {memory : μ} {body : Body μ α}
    {trace : Trace μ} {m : Machine μ α} (h : Run β depth memory body trace m) :
    Recounted m.world trace m.world := PubSub.recounted h.activities.1

end PubSub
