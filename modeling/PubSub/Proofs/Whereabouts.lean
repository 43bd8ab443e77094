import PubSub.Proofs.Story

/-!
# Whereabouts

Along a lawful trace an invocation is in one place at most, counting the threads, the executors and
those that are settled, and what has happened to it is what this place tells.
-/
namespace PubSub

variable {μ : Type}

/-- The invocations that no thread has in hand, with those that are settled among one account. -/
def World.mentions (w : World μ) (i : Invocation) : List (Invocation × Place) :=
  w.jobs.flatMap Job.mentions ++ (w.account i).flatMap Occurrence.mentions

namespace Deed

/-- What a deed does to the world as far as invocations and their numbers go. -/
structure Does (deed : Deed μ) (w w' : World μ) : Prop where
  mentions : ∀ i, ∃ rest, (placesOf i (w.mentions i)).Perm (placesOf i deed.lost ++ rest) ∧
    (placesOf i (w'.mentions i)).Perm (placesOf i deed.gained ++ rest)
  account : ∀ i, w'.account i = w.account i ++ Outlook.said i deed
  later : w.serial ≤ w'.serial
  numbered : ∀ n, deed = .step .serial n → n = w.serial ∧ w'.serial = w.serial + 1

variable {w w' : World μ}

theorem placesOf_said (i : Invocation) (deed : Deed μ) :
    placesOf i ((Outlook.said i deed).flatMap Occurrence.mentions) =
      placesOf i (deed.occurrence?.toList.flatMap Occurrence.mentions) := by
  unfold Outlook.said
  cases deed.occurrence? with
  | none => rfl
  | some o =>
    by_cases h : o.invocation? = some i
    · simp [h]
    · cases o with
      | settled j =>
        have hj : j ≠ i := fun hj => h (congrArg some hj)
        simp [Occurrence.invocation?, Occurrence.mentions, placesOf, hj]
      | _ => simp [Occurrence.mentions, h]

theorem does_of_jobs {deed : Deed μ} (lost gained : List Job)
    (hlost : deed.lost = lost.flatMap Job.mentions)
    (hgained : deed.gained =
      gained.flatMap Job.mentions ++ deed.occurrence?.toList.flatMap Occurrence.mentions)
    (honly : lost = [] ∨ gained = []) (hjobs : (lost ++ w'.jobs).Perm (gained ++ w.jobs))
    (haccount : ∀ i, w'.account i = w.account i ++ Outlook.said i deed) (i : Invocation) :
    ∃ rest, (placesOf i (w.mentions i)).Perm (placesOf i deed.lost ++ rest) ∧
      (placesOf i (w'.mentions i)).Perm (placesOf i deed.gained ++ rest) := by
  have hmoved := placesOf_perm (hjobs.flatMap_right Job.mentions) i
  rw [List.flatMap_append, List.flatMap_append, placesOf_append, placesOf_append] at hmoved
  rw [World.mentions, World.mentions, haccount, List.flatMap_append, placesOf_append,
    placesOf_append, placesOf_append, placesOf_said, hlost, hgained, placesOf_append]
  generalize placesOf i (deed.occurrence?.toList.flatMap Occurrence.mentions) = new
  generalize placesOf i ((w.account i).flatMap Occurrence.mentions) = told
  generalize placesOf i (w'.jobs.flatMap Job.mentions) = after at hmoved ⊢
  generalize placesOf i (w.jobs.flatMap Job.mentions) = before at hmoved ⊢
  rcases honly with rfl | rfl
  · refine ⟨before ++ told, .refl _, ?_⟩
    generalize placesOf i (gained.flatMap Job.mentions) = part at hmoved ⊢
    calc after ++ (told ++ new)
        _ |>.Perm ((part ++ before) ++ (told ++ new)) := hmoved.append_right _
        _ = part ++ ((before ++ told) ++ new) := by simp only [List.append_assoc]
        _ |>.Perm (part ++ (new ++ (before ++ told))) := List.perm_append_comm.append_left part
        _ = (part ++ new) ++ (before ++ told) := (List.append_assoc ..).symm
  · generalize placesOf i (lost.flatMap Job.mentions) = part at hmoved ⊢
    refine ⟨after ++ told, ?_, ?_⟩
    · calc before ++ told
          _ |>.Perm ((part ++ after) ++ told) := hmoved.symm.append_right told
          _ = part ++ (after ++ told) := List.append_assoc ..
    · calc after ++ (told ++ new)
          _ = (after ++ told) ++ new := (List.append_assoc ..).symm
          _ |>.Perm (new ++ (after ++ told)) := List.perm_append_comm

theorem does_step {s : Step μ} {reply : s.Reply} (h : s.run w = some (reply, w')) :
    Does (.step s reply) w w' := by
  have heffect := Step.run_effect h
  refine ⟨does_of_jobs _ _ rfl rfl ?_ heffect.jobs heffect.account, heffect.account, ?_, ?_⟩
  · cases s <;> first | exact .inl rfl | exact .inr rfl
  · have hserial := heffect.serial
    cases hn : s.numbered? reply <;> rw [hn] at hserial
    · exact Nat.le_of_eq hserial.symm
    · exact Nat.le_of_lt (hserial.2 ▸ Nat.lt_succ_self _)
  · rintro n ⟨⟩
    exact heffect.serial

theorem account_of_history_eq (h : w'.history = w.history) (i : Invocation) :
    w'.account i = w.account i := by
  rw [World.account, World.account, h]

theorem does_took {job : Job} (hjobs : w.jobs.Perm (job :: w'.jobs))
    (hworld : w'.buses = w.buses ∧ w'.history = w.history ∧ w'.serial = w.serial ∧
      w'.tasks = w.tasks ∧ w'.declarations = w.declarations) : Does (.took job) w w' := by
  have haccount : ∀ i, w'.account i = w.account i ++ Outlook.said i (.took job : Deed μ) := fun i =>
    (account_of_history_eq hworld.2.1 i).trans (List.append_nil _).symm
  have hlost : Deed.lost (.took job : Deed μ) = [job].flatMap Job.mentions :=
    (List.flatMap_singleton ..).symm
  refine ⟨does_of_jobs [job] [] hlost rfl (.inr rfl) hjobs.symm haccount, haccount,
    Nat.le_of_eq hworld.2.2.1.symm, ?_⟩
  rintro n ⟨⟩

theorem does_woke (h : w.Alike w') : Does .woke w w' := by
  have haccount : ∀ i, w'.account i = w.account i ++ Outlook.said i (.woke : Deed μ) := fun i =>
    (account_of_history_eq h.history i).trans (List.append_nil _).symm
  refine ⟨does_of_jobs [] [] rfl rfl (.inl rfl) h.jobs haccount, haccount,
    Nat.le_of_eq h.serial.symm, ?_⟩
  rintro n ⟨⟩

end Deed

/-- Nobody has taken the invocation from an executor on the way to this place. -/
def Place.isUntaken : Place → Bool
  | .held job _ => !job
  | .settled => false
  | _ => true

def Place.isUnaccepted : Place → Bool
  | .unborn | .planned | .held false _ => true
  | _ => false

def Place.isSelected : Place → Bool
  | .unborn => false
  | _ => true

/-- A post selects the handler of an invocation. -/
def Deed.Selects (deed : Deed μ) (i : Invocation) : Prop :=
  ∃ name invocations, deed = .step (.record name (.selected i.post invocations)) () ∧ i ∈ invocations

theorem Place.of_isLoose {p : Place} (h : p.isLoose = true) :
    p.isUntaken = true ∧ p.isUnaccepted = true := by
  unfold isLoose at h
  split at h <;> first | exact ⟨rfl, rfl⟩ | cases h

namespace Outlook

variable (O : Outlook)

/-- Where an invocation is, for all threads and executors. -/
def places (trace : Trace μ) (w : World μ) (i : Invocation) : List Place :=
  (O.protocol.roll trace).gather (Standing.places i) ++ placesOf i (w.mentions i)

/-- An invocation is in this place and in no other. -/
structure IsAt (trace : Trace μ) (w : World μ) (i : Invocation) (p : Option Place) : Prop where
  place : O.places trace w i = p.toList
  tells : O.Tells i p (w.account i)
  untaken : p.all Place.isUntaken = true → ∀ entry ∈ trace, entry.2.taken? ≠ some i
  unaccepted : p.all Place.isUnaccepted = true → ∀ entry ∈ trace, entry.2.accepted? ≠ some i
  selected : p.any Place.isSelected = true → ∃ entry ∈ trace, entry.2.Selects i

variable {O} {i : Invocation}

theorem Turns.untaken {deed : Deed μ} {p p' : Place} (h : O.Turns i deed p p')
    (hp : p'.isUntaken = true) : p.isUntaken = true ∧ deed.taken? ≠ some i := by
  cases h with
  | accept accepted =>
    refine ⟨rfl, ?_⟩
    obtain ⟨_, _, _, -, rfl | rfl⟩ := Deed.eq_of_accepted? accepted <;> rintro ⟨⟩
  | take => cases hp
  | settle => cases hp
  | _ => exact ⟨hp, nofun⟩

theorem Turns.unaccepted {deed : Deed μ} {p p' : Place} (h : O.Turns i deed p p')
    (hp : p'.isUnaccepted = true) : p.isUnaccepted = true ∧ deed.accepted? ≠ some i := by
  cases h with
  | accept => cases hp
  | take => cases hp
  | settle => cases hp
  | select => exact ⟨rfl, nofun⟩
  | submit => exact ⟨rfl, nofun⟩
  | share => exact ⟨rfl, nofun⟩
  | callPlanned => exact ⟨rfl, nofun⟩
  | @call _ _ job => cases job <;> first | exact ⟨rfl, nofun⟩ | cases hp
  | @finish _ _ job => cases job <;> first | exact ⟨rfl, nofun⟩ | cases hp
  | @report _ job => cases job <;> first | exact ⟨rfl, nofun⟩ | cases hp
  | refuse => exact ⟨rfl, nofun⟩
  | drop => cases hp

theorem Turns.selected {deed : Deed μ} {p p' : Place} (h : O.Turns i deed p p') :
    p.isSelected = true ∨ deed.Selects i := by
  cases h with
  | select mem => exact .inr ⟨_, _, rfl, mem⟩
  | _ => exact .inl rfl

theorem said_of_subject? {deed : Deed μ} (h : deed.subject? ≠ some i) : said i deed = [] := by
  unfold said
  cases deed with
  | step s reply =>
    cases s with
    | record t o => exact List.filter_cons_of_neg fun hi => h (of_decide_eq_true hi)
    | _ => rfl
  | _ => rfl

theorem perm_toList {p : Option Place} {l : List Place} (h : l.Perm p.toList) : l = p.toList := by
  cases p with
  | none => exact h.eq_nil
  | some x => exact List.perm_singleton.mp h

/-- Whoever is in one place and in no other is not in a second one. -/
theorem eq_of_toList_perm_cons {p : Option Place} {x : Place} {l : List Place}
    (h : p.toList.Perm (x :: l)) : p = some x ∧ l = [] := by
  cases p with
  | none => exact absurd h.symm.eq_nil nofun
  | some y =>
    obtain ⟨rfl, rfl⟩ := List.cons.inj (List.perm_singleton.mp h.symm)
    exact ⟨rfl, rfl⟩

theorem exists_mem_cons {trace : Trace μ} {P : Turn × Deed μ → Prop} (entry : Turn × Deed μ)
    (h : ∃ entry ∈ trace, P entry) : ∃ entry' ∈ entry :: trace, P entry' := by
  obtain ⟨entry', hmem, hP⟩ := h
  exact ⟨entry', List.mem_cons_of_mem _ hmem, hP⟩

theorem forall_mem_cons_ne {trace : Trace μ} {t : Turn} {deed : Deed μ}
    {f : Deed μ → Option Invocation} (hdeed : f deed ≠ some i)
    (htrace : ∀ entry ∈ trace, f entry.2 ≠ some i) :
    ∀ entry ∈ (t, deed) :: trace, f entry.2 ≠ some i :=
  List.forall_mem_cons.mpr ⟨hdeed, htrace⟩

/-- One deed later an invocation is still in one place at most. -/
theorem IsAt.next {trace : Trace μ} {w w' : World μ} {t : Turn} {deed : Deed μ} {p : Option Place}
    {before after rest : List Place} (h : O.IsAt trace w i p)
    (hbefore : (O.places trace w i).Perm (before ++ rest))
    (hafter : (O.places ((t, deed) :: trace) w' i).Perm (after ++ rest))
    (halters : O.Alters i deed before after) (haccount : w'.account i = w.account i ++ said i deed)
    (hnew : deed = .step .serial i.post → p = none ∧ w.account i = []) :
    ∃ p', O.IsAt ((t, deed) :: trace) w' i p' := by
  rw [h.place] at hbefore
  cases halters with
  | idle loose idle =>
    have haccount' : w'.account i = w.account i := by
      rw [haccount, said_of_subject? idle, List.append_nil]
    have htaken : deed.taken? ≠ some i := fun htaken => idle (Deed.subject?_of_taken? htaken).1
    have haccepted : deed.accepted? ≠ some i := fun haccepted =>
      idle (Deed.subject?_of_accepted? haccepted).1
    cases before with
    | nil =>
      refine ⟨p, perm_toList (hafter.trans hbefore.symm), haccount'.symm ▸ h.tells, fun hp => ?_,
        fun hp => ?_, fun hp => ?_⟩
      · exact forall_mem_cons_ne htaken (h.untaken hp)
      · exact forall_mem_cons_ne haccepted (h.unaccepted hp)
      · exact exists_mem_cons _ (h.selected hp)
    | cons x gone =>
      obtain ⟨rfl, hnil⟩ := eq_of_toList_perm_cons hbefore
      obtain ⟨rfl, rfl⟩ := List.append_eq_nil_iff.mp hnil
      have hloose := loose x List.mem_cons_self
      refine ⟨none, hafter.eq_nil, ?_, fun _ => ?_, fun _ => ?_, nofun⟩
      · rw [haccount']
        exact .nowhere (h.tells.unsubmitted hloose)
      · exact forall_mem_cons_ne htaken (h.untaken (Place.of_isLoose hloose).1)
      · exact forall_mem_cons_ne haccepted (h.unaccepted (Place.of_isLoose hloose).2)
  | number =>
    obtain ⟨rfl, hnone⟩ := hnew rfl
    obtain rfl : rest = [] := hbefore.symm.eq_nil
    refine ⟨some .unborn, perm_toList hafter, ?_, fun hp => ?_, fun hp => ?_, nofun⟩
    · rw [haccount, hnone]
      exact .unborn
    · exact forall_mem_cons_ne nofun (h.untaken rfl)
    · exact forall_mem_cons_ne nofun (h.unaccepted rfl)
  | @turns _ _ p' _ loose turns =>
    obtain ⟨rfl, hnil⟩ := eq_of_toList_perm_cons hbefore
    obtain ⟨rfl, rfl⟩ := List.append_eq_nil_iff.mp hnil
    refine ⟨some p', perm_toList hafter, haccount ▸ turns.tells h.tells, fun hp => ?_, fun hp => ?_,
      fun _ => ?_⟩
    · obtain ⟨hold, hdeed⟩ := turns.untaken hp
      exact forall_mem_cons_ne hdeed (h.untaken hold)
    · obtain ⟨hold, hdeed⟩ := turns.unaccepted hp
      exact forall_mem_cons_ne hdeed (h.unaccepted hold)
    · rcases turns.selected with hold | hdeed
      · exact exists_mem_cons _ (h.selected hold)
      · exact ⟨_, List.mem_cons_self, hdeed⟩

/-- Every invocation is somewhere or nowhere, and those of later posts are nowhere yet. -/
structure Located (O : Outlook) (trace : Trace μ) (w : World μ) (i : Invocation) : Prop where
  somewhere : ∃ p, O.IsAt trace w i p
  later : w.serial ≤ i.post → O.places trace w i = [] ∧ w.account i = []

theorem places_base (t : Turn) : (base t).places i = [] := by
  unfold base
  split <;> rfl

theorem perm_regroup {a b here others gone rest part common : List Place}
    (ha : a.Perm (here ++ others)) (hb : b.Perm (gone ++ rest))
    (h : (here ++ gone).Perm (part ++ common)) :
    (a ++ b).Perm (part ++ (common ++ (others ++ rest))) := by
  calc a ++ b
      _ |>.Perm ((here ++ others) ++ (gone ++ rest)) := ha.append hb
      _ = here ++ (others ++ (gone ++ rest)) := List.append_assoc ..
      _ |>.Perm (here ++ (gone ++ (others ++ rest))) :=
        (List.perm_append_comm_assoc ..).append_left here
      _ = (here ++ gone) ++ (others ++ rest) := (List.append_assoc ..).symm
      _ |>.Perm ((part ++ common) ++ (others ++ rest)) := h.append_right _
      _ = part ++ (common ++ (others ++ rest)) := List.append_assoc ..

theorem Located.next {trace : Trace μ} {w w' : World μ} {t : Turn} {deed : Deed μ}
    (h : Located O trace w i) (hdoes : deed.Does w w')
    (hmoves : (O.protocol.standing trace t).Moves
      (O.protocol.next t (O.protocol.standing trace t) deed) deed)
    (hbacked : O.Backs (O.protocol.standing trace t) deed) : Located O ((t, deed) :: trace) w' i := by
  obtain ⟨before, after, common, hwas, his, halters⟩ := (hmoves.shift hbacked).places i
  obtain ⟨others, hthreads, hthreads'⟩ := Roll.gather_put (f := Standing.places i)
    (O.protocol.roll trace) (O.protocol.next t (O.protocol.standing trace t) deed) (places_base t)
  obtain ⟨rest, hworld, hworld'⟩ := hdoes.mentions i
  have hbefore : (O.places trace w i).Perm (before ++ (common ++ (others ++ rest))) :=
    perm_regroup hthreads hworld hwas
  have hafter : (O.places ((t, deed) :: trace) w' i).Perm (after ++ (common ++ (others ++ rest))) :=
    perm_regroup hthreads' hworld' his
  obtain ⟨p, hp⟩ := h.somewhere
  constructor
  · refine hp.next hbefore hafter halters (hdoes.account i) ?_
    rintro rfl
    obtain ⟨hplaces, haccount⟩ := h.later (Nat.le_of_eq (hdoes.numbered _ rfl).1.symm)
    rw [hp.place] at hplaces
    cases p with
    | none => exact ⟨rfl, haccount⟩
    | some p => cases hplaces
  · intro hlater
    obtain ⟨hplaces, haccount⟩ := h.later (Nat.le_trans hdoes.later hlater)
    rw [hplaces] at hbefore
    obtain ⟨rfl, hrest⟩ := List.append_eq_nil_iff.mp hbefore.symm.eq_nil
    rw [hrest] at hafter
    cases halters with
    | idle loose idle =>
      refine ⟨hafter.eq_nil, ?_⟩
      rw [hdoes.account, haccount, said_of_subject? idle]
      rfl
    | number =>
      obtain ⟨hpost, hserial⟩ := hdoes.numbered _ rfl
      rw [hserial, ← hpost] at hlater
      exact absurd hlater (Nat.not_succ_le_self _)

theorem Located.of_alike {trace : Trace μ} {w w' : World μ} (h : Located O trace w i)
    (halike : w.Alike w') : Located O trace w' i := by
  have haccount : w'.account i = w.account i := Deed.account_of_history_eq halike.history i
  have hplaces : (O.places trace w' i).Perm (O.places trace w i) := by
    rw [places, places, World.mentions, World.mentions, haccount]
    exact (placesOf_perm ((halike.jobs.flatMap_right _).append_right _) i).append_left _
  constructor
  · obtain ⟨p, hp⟩ := h.somewhere
    exact ⟨p, perm_toList (hp.place ▸ hplaces), haccount ▸ hp.tells, hp.untaken, hp.unaccepted,
      hp.selected⟩
  · intro hlater
    obtain ⟨hnone, haccount'⟩ := h.later (halike.serial ▸ hlater)
    exact ⟨(hnone ▸ hplaces).eq_nil, haccount.trans haccount'⟩

theorem located {trace : Trace μ} {w : World μ} (h : O.protocol.Lawful trace w) (i : Invocation) :
    Located O trace w i := by
  induction h with
  | start memory =>
    exact ⟨⟨none, rfl, .nowhere List.not_mem_nil, fun _ => List.forall_mem_nil _,
      fun _ => List.forall_mem_nil _, nofun⟩, fun _ => ⟨rfl, rfl⟩⟩
  | step before allowed world ih =>
    exact ih.next (Deed.does_step world) (Standing.step?_moves (Outlook.step?_of_allows allowed _))
      allowed.2
  | @took _ _ _ _ _ job _ _ jobs world ih =>
    refine ih.next (Deed.does_took jobs world) ?_ trivial
    cases job with
    | delivery d executor => exact .take rfl rfl rfl
    | work label body => exact .quiet rfl rfl rfl
  | woke before idle ready world ih =>
    exact ih.next (Deed.does_woke world) (.quiet rfl rfl rfl) trivial
  | rested before world ih => exact ih.of_alike world

end Outlook

end PubSub
