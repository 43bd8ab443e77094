import PubSub.Proofs.Submissions

/-!
# How far a post has gone

What a thread has done decides where it stands with its posts. So the deeds of a post tell how far it had
gone on its round when it answered. After that no thread goes on for it.
-/
namespace PubSub

open Program Conduct

variable {μ α γ : Type}

/-- Where a thread stands depends on what it has done, and on nothing else. -/
theorem Conduct.standing_append (C : Conduct μ) (later trace : Trace μ) (t : Turn) :
    C.standing (later ++ trace) t = (later.deedsOf t).foldl (C.next t) (C.standing trace t) := by
  induction later with
  | nil => rfl
  | cons entry later ih =>
    obtain ⟨u, deed⟩ := entry
    rw [List.cons_append, standing_cons, ← List.singleton_append, Trace.deedsOf_append, List.foldl_append,
      ← ih]
    by_cases hu : u = t
    · subst hu
      rw [if_pos rfl, Trace.deedsOf_singleton]
      rfl
    · rw [if_neg fun heq => hu heq.symm,
        Trace.deedsOf_eq_nil (List.forall_mem_singleton.mpr fun heq => hu heq)]
      rfl

/-- What comes in the midst of a thread's deeds was done at some moment. -/
theorem Trace.exists_of_deedsOf {trace : Trace μ} {t : Turn} {deed : Deed μ} {first rest : List (Deed μ)}
    (h : trace.deedsOf t = first ++ deed :: rest) :
    ∃ after before : Trace μ, trace = after ++ (t, deed) :: before ∧ before.deedsOf t = first := by
  obtain ⟨before, others, hreverse, hfirst, hrest⟩ := List.filterMap_eq_append_iff.mp h
  obtain ⟨idle, ⟨u, deed'⟩, after, rfl, hidle, hdeed, -⟩ := List.filterMap_eq_cons_iff.mp hrest
  obtain ⟨rfl, hsame⟩ := Option.ite_none_right_eq_some.mp hdeed
  obtain rfl := Option.some.inj hsame
  refine ⟨after.reverse, idle.reverse ++ before.reverse, ?_, ?_⟩
  · rw [← List.reverse_reverse trace, hreverse]
    simp
  · have hnone : Trace.deedsOf idle.reverse u = [] := by
      rw [deedsOf, List.reverse_reverse]
      exact List.filterMap_eq_nil_iff.mpr hidle
    rw [deedsOf_append, hnone, List.append_nil, deedsOf, List.reverse_reverse]
    exact hfirst

/-- A program that has come to its end has got where it should, if what it learned can be trusted. -/
theorem Conduct.Obeys.follow {C : Conduct μ} {g : C.Standing} {p : Proc μ γ} {Q : C.Standing → γ → Prop}
    (h : C.Obeys g p Q) {deeds : List (Deed μ)} {a : γ} (hends : Proc.Ends p deeds a)
    (htrusts : ∀ s reply, .step s reply ∈ deeds → C.trusts s reply) (t : Turn) :
    Q (deeds.foldl (C.next t) g) a := by
  induction hends generalizing g with
  | done a => exact h
  | step rest ih =>
    exact ih (h.2 _ (htrusts _ _ List.mem_cons_self)) fun s reply hmem =>
      htrusts s reply (List.mem_cons_of_mem _ hmem)

/-- Whatever a thread has learned can be trusted. -/
theorem Conduct.Lawful.trusts {C : Conduct μ} {covers : Trace μ → World μ → Prop} {trace : Trace μ}
    {w : World μ} (h : C.Lawful trace w) (hreliable : C.Reliable covers) (hcovers : covers trace w)
    {t : Turn} {s : Step μ} {reply : s.Reply} (hmem : (t, .step s reply) ∈ trace) :
    C.trusts s reply := by
  obtain ⟨later, before, rfl⟩ := List.append_of_mem hmem
  obtain ⟨w₀, w₁, hbefore, hallowed, hrun, hextend⟩ := h.exists_step rfl
  exact hreliable.step _ _ _ _ _ (hbefore.step hallowed hrun)
    (hreliable.earlier later _ _ _ hextend hcovers)

theorem Run.trusts {β : Behaviour μ} {depth : Nat} {memory : μ} {body : Body μ α} {trace : Trace μ}
    {m : Machine μ α} (h : Run β depth memory body trace m) {t : Turn} {s : Step μ} {reply : s.Reply}
    (hmem : (t, .step s reply) ∈ trace) : (Rounds.conduct m.world).trusts s reply :=
  h.rounds.trusts (Rounds.reliable m.world) h.covers hmem

namespace Rounds

variable {last : World μ} {t : Turn} {g : Rounds} {deeds : List (Deed μ)} {tours : List Tour}
  {said : List Occurrence} {id : PostId} {visited : List Invocation}

/-- A post that has found its handlers sets out. -/
theorem has_of_finds {name : Thread} {b : BusId} {event : Event} {table : Table} {ds : List Delivery}
    {seen : Bus} (h : FindsHandlers name b event table id ds seen deeds) :
    Has (⟨id, [], ds.map Delivery.invocation⟩ :: g.tours, [])
      (deeds.foldl ((conduct last).next t) g) := by
  cases h with
  | selected bus again note lookup view => cases lookup <;> exact ⟨rfl, List.nil_subset _⟩

theorem foldl_handsTo {e : ExecutorId} {job : Job} {x : Executor} {taken : Option Bool}
    (h : HandsTo e job x taken deeds) : deeds.foldl ((conduct last).next t) g = g := by
  cases h <;> rfl

theorem has_submitted (last : World μ) {i : Invocation} {todo : List Invocation}
    (h : Has (⟨id, visited, i :: todo⟩ :: tours, said) g) :
    Has (⟨id, visited ++ [i], todo⟩ :: tours, said) (g.say last (.submitted i)) := by
  obtain ⟨htours, hsaid⟩ := h
  have hsay : g.say last (.submitted i) = visit { g with said := .submitted i :: g.said } i := rfl
  rw [hsay, visit]
  simp only [htours]
  exact ⟨rfl, fun x hx => List.mem_cons_of_mem _ (hsaid hx)⟩

theorem has_of_acceptsAll {name : Thread} {e : ExecutorId} {label : String} {ds : List Delivery}
    (h : AcceptsAll name e label ds deeds) {todo : List Invocation}
    (hg : Has (⟨id, visited, ds.map Delivery.invocation ++ todo⟩ :: tours, said) g) :
    Has (⟨id, visited ++ ds.map Delivery.invocation, todo⟩ :: tours, said)
      (deeds.foldl ((conduct last).next t) g) := by
  induction h generalizing g visited with
  | nil =>
    rw [List.map_nil, List.append_nil]
    exact hg
  | @cons d ds _ _ _ x accepts rest ih =>
    have hvisited : Has
        (⟨id, visited ++ [d.invocation], ds.map Delivery.invocation ++ todo⟩ :: tours, said)
        (g.say last (.submitted d.invocation)) := has_submitted last hg
    have hnext := ih hvisited
    rw [List.append_assoc, List.singleton_append] at hnext
    rw [List.foldl_cons, List.foldl_cons, List.foldl_append, foldl_handsTo accepts]
    exact hnext

/-- A post visits the handlers whose jobs the executor accepts, and the next one if there is one. -/
theorem has_of_submits {client : Client μ} (hclient : ∀ k, (conduct last).Tolerates (Has k) client)
    {name : Thread} {e : ExecutorId} {label : String} {error : BusError} {before rest : List Delivery}
    {outcome : Outcome} (h : Submits client name e label error before rest deeds outcome)
    (htrusts : ∀ s reply, .step s reply ∈ deeds → (conduct last).trusts s reply)
    (hg : Has (⟨id, visited, (before ++ rest).map Delivery.invocation⟩ :: tours, said) g) :
    ∃ todo, Has (⟨id, visited ++ (before ++ rest.take 1).map Delivery.invocation, todo⟩ :: tours, said)
      (deeds.foldl ((conduct last).next t) g) := by
  rw [List.map_append] at hg
  cases h with
  | all accepts => exact ⟨[], by simpa using has_of_acceptsAll accepts hg⟩
  | @stopped after d accepting _ _ _ _ x bus note accepts refuses refused drops =>
    have haccepted : Has (⟨id, visited ++ before.map Delivery.invocation,
        (d :: after).map Delivery.invocation⟩ :: tours, said)
        (accepting.foldl ((conduct last).next t) g) := has_of_acceptsAll accepts hg
    have hdropped := ((minds _).dropJob name (hclient _) _ _ (has_submitted last haccepted)).follow drops
      (fun s reply hmem => htrusts s reply (by simp [hmem])) t
    refine ⟨after.map Delivery.invocation, ?_⟩
    simp only [List.foldl_append, List.foldl_cons, List.foldl_nil, foldl_handsTo refuses]
    rw [List.take_succ_cons, List.take_zero, List.map_append, ← List.append_assoc]
    exact ⟨hdropped.1, fun o ho => List.mem_cons_of_mem _ (hdropped.2 ho)⟩

/-- The history shows the visits of a post that is under way, and no answer. -/
theorem Charted.of_tour {trace : Trace μ} {w : World μ} (h : Charted last trace w) {tour : Tour}
    {rest : List Tour} (htours : ((conduct last).standing trace t).tours = tour :: rest) :
    (w.story tour.id).filterMap last.visit? = tour.visited ∧
      ∀ outcome, .answered tour.id outcome ∉ w.story tour.id := by
  obtain ⟨others, hgather, -⟩ := Roll.gather_put (f := progress tour.id) ((conduct last).roll trace)
    ((conduct last).standing trace t) (progress_base tour.id t)
  have hprogress := hgather.trans ((progress_perm htours rfl).append_right others)
  obtain ⟨-, -, hvisits, hunanswered⟩ := ((h.pursued tour.id).perm hprogress.symm).of_tour
  exact ⟨hvisits, hunanswered⟩

/-- Nobody makes a visit for a post that has answered. -/
theorem not_visit_after {trace after before : Trace μ} {w : World μ}
    (h : (conduct last).Lawful trace w) {name : Thread} {outcome : Outcome}
    (htrace : trace = after ++ (t, .step (.record name (.answered id outcome)) ()) :: before) {u : Turn}
    {name' : Thread} {o : Occurrence} (hmem : (u, .step (.record name' o) ()) ∈ after) {i : Invocation}
    (hvisit : last.visit? o = some i) : i.post ≠ id := by
  rintro rfl
  obtain ⟨after, between, rfl⟩ := List.append_of_mem hmem
  rw [List.append_assoc, List.cons_append] at htrace
  obtain ⟨w₀, w₁, hearlier, hallowed, -⟩ := h.exists_step htrace
  have hvouches : ∃ tour todo rest, ((conduct last).standing
      (between ++ (t, .step (.record name (.answered i.post outcome)) ()) :: before) u).tours =
      tour :: rest ∧
        tour.id = i.post ∧ tour.todo = i :: todo := by
    have hallows : Vouches last _ o := hallowed
    cases o with
    | called | submitted => simpa only [Vouches, hvisit, Option.elim_some] using hallows
    | _ => cases hvisit
  obtain ⟨tour, todo, rest, htours, hpost, -⟩ := hvouches
  have hanswered : .answered i.post outcome ∈ w₀.story i.post :=
    hearlier.mem_story (List.mem_append_right between List.mem_cons_self) rfl
  rw [← hpost] at hanswered
  exact ((charted hearlier).of_tour htours).2 outcome hanswered

end Rounds

/-- Two first parts of a list without repetitions are the same if they have the same members. -/
theorem eq_of_prefix_of_subset {A : Type} {l l' xs : List A} (h : l <+: xs) (h' : l' <+: xs)
    (hnodup : xs.Nodup) (hsub : l ⊆ l') (hsub' : l' ⊆ l) : l = l' := by
  have hle := (List.subperm_of_subset (hnodup.sublist h.sublist) hsub).length_le
  have hge := (List.subperm_of_subset (hnodup.sublist h'.sublist) hsub').length_le
  exact (List.prefix_of_prefix_length_le h h' hle).eq_of_length (Nat.le_antisymm hle hge)

/-- A post that has answered has made the visits that its thread had made when it answered, and no
other. -/
theorem Run.visits_of_tour {β : Behaviour μ} {depth : Nat} {memory : μ} {body : Body μ α}
    {trace after before : Trace μ} {m : Machine μ α} (h : Run β depth memory body trace m) {t : Turn}
    {name : Thread} {outcome : Outcome} {tour : Tour} {rest : List Tour} {matched : List Invocation}
    (hselected : .selected tour.id matched ∈ m.world.story tour.id) (hnodup : matched.Nodup)
    (htrace : trace = after ++ (t, .step (.record name (.answered tour.id outcome)) ()) :: before)
    (htours : ((Rounds.conduct m.world).standing before t).tours = tour :: rest)
    (hvisited : tour.visited <+: matched) :
    (m.world.story tour.id).filterMap m.world.visit? = tour.visited := by
  obtain ⟨w₀, w₁, hbefore, -⟩ := h.rounds.exists_step htrace
  have hvisits := ((Rounds.charted hbefore).of_tour htours).1
  refine eq_of_prefix_of_subset (h.pursues hselected).in_order hvisited hnodup ?_ ?_
  · intro i hi
    obtain ⟨o, ho, hvisit⟩ := List.mem_filterMap.mp hi
    have hpost := (World.mem_story.mp ho).2
    obtain ⟨u, name', hmem⟩ := h.rounds.exists_record ho
    rw [htrace] at hmem
    rcases List.mem_append.mp hmem with hmem | hmem
    · have hid := Option.some.inj ((Rounds.post?_of_visit? hvisit).symm.trans hpost)
      exact absurd hid (Rounds.not_visit_after h.rounds htrace hmem hvisit)
    · rcases List.mem_cons.mp hmem with heq | hmem
      · cases heq
        cases hvisit
      · rw [← hvisits]
        exact List.mem_filterMap.mpr ⟨o, hbefore.mem_story hmem hpost, hvisit⟩
  · intro i hi
    rw [← hvisits] at hi
    obtain ⟨o, ho, hvisit⟩ := List.mem_filterMap.mp hi
    obtain ⟨u, name', hmem⟩ := hbefore.exists_record ho
    have hdone : (u, .step (.record name' o) ()) ∈ trace := by
      rw [htrace]
      exact List.mem_append_right after (List.mem_cons_of_mem _ hmem)
    exact List.mem_filterMap.mpr ⟨o, h.rounds.mem_story hdone (World.mem_story.mp ho).2, hvisit⟩

end PubSub
