import PubSub.Proofs.Moves

/-!
# The life of an invocation

A post plans its invocations before it comes to them. Then a thread has an invocation in hand, or an
executor stores it, until it is over. A deed moves the one invocation that it is about, and may make
a thread forget others that it has not begun or has done with.
-/
namespace PubSub

variable {μ : Type}

/-- Where an invocation is. -/
inductive Place where
  /-- The post that it would belong to has a number, but has not selected any handlers yet. -/
  | unborn
  | planned
  /-- A thread has it in hand, in a post or in a job. -/
  | held (job : Bool) (phase : Phase)
  | stored
  | settled

/-- A thread that leaves an invocation here need not come back to it. -/
def Place.isLoose : Place → Bool
  | .unborn | .planned | .held false (.ended _ _) => true
  | _ => false

def Hand.mention (job : Bool) (hand : Hand) : Invocation × Place :=
  (hand.invocation, .held job hand.phase)

def Frame.mentions : Frame → List (Invocation × Place)
  | .post _ hand todo => (hand.map (Hand.mention false)).toList ++ todo.map (·, .planned)
  | .job hand => [hand.mention true]

def Standing.mentions (g : Standing) : List (Invocation × Place) := g.stack.flatMap Frame.mentions

def Job.mentions : Job → List (Invocation × Place)
  | .delivery d _ => [(d.invocation, .stored)]
  | .work _ _ => []

def Occurrence.mentions : Occurrence → List (Invocation × Place)
  | .settled i => [(i, .settled)]
  | _ => []

namespace Deed

def occurrence? : Deed μ → Option Occurrence
  | .step s _ => s.occurrence?
  | _ => none

/-- What a deed takes away from executors. -/
def lost : Deed μ → List (Invocation × Place)
  | .step s reply => (s.lost reply).flatMap Job.mentions
  | .took job => job.mentions
  | .woke => []

/-- What a deed puts where no thread has it in hand. -/
def gained : Deed μ → List (Invocation × Place)
  | .step s reply =>
    (s.gained reply).flatMap Job.mentions ++ s.occurrence?.toList.flatMap Occurrence.mentions
  | _ => []

/-- The invocation that a deed is about. -/
def subject? : Deed μ → Option Invocation
  | .step (.offer _ (.delivery d _)) true => some d.invocation
  | .step (.send _ (.delivery d _)) true => some d.invocation
  | .step (.pick _ _) (some (.delivery d _)) => some d.invocation
  | .step (.record _ o) _ => o.invocation?
  | .took (.delivery d _) => some d.invocation
  | _ => none

theorem subject?_of_accepted? {deed : Deed μ} {i : Invocation} (h : deed.accepted? = some i) :
    deed.subject? = some i ∧ deed.lost = [] ∧ deed.gained = [(i, .stored)] := by
  obtain ⟨_, _, _, rfl, rfl | rfl⟩ := eq_of_accepted? h <;> exact ⟨rfl, rfl, rfl⟩

theorem subject?_of_taken? {deed : Deed μ} {i : Invocation} (h : deed.taken? = some i) :
    deed.subject? = some i ∧ deed.lost = [(i, .stored)] ∧ deed.gained = [] := by
  obtain ⟨_, _, rfl, rfl | ⟨_, _, rfl⟩⟩ := eq_of_taken? h <;> exact ⟨rfl, rfl, rfl⟩

end Deed

namespace Outlook

variable (O : Outlook)

/-- The handler gets what the route of its topic makes of the event. -/
def Bound (i : Invocation) (object : Object) : Prop :=
  ∃ route, O.Fits ⟨i, route⟩ ∧ route.follow i.event i.subscription.topic = some object

/-- How an invocation gets from place to place. -/
inductive Turns (i : Invocation) : Deed μ → Place → Place → Prop where
  | select {t : Thread} {invocations : List Invocation} (mem : i ∈ invocations) :
      Turns i (.step (.record t (.selected i.post invocations)) ()) .unborn .planned
  | submit {t : Thread} : Turns i (.step (.record t (.submitted i)) ()) .planned (.held false .offered)
  | accept {deed : Deed μ} (accepted : deed.accepted? = some i) :
      Turns i deed (.held false .offered) .stored
  | refuse {t : Thread} {executor : String} :
      Turns i (.step (.record t (.dropped i executor)) ()) (.held false .offered)
        (.held false (.lost executor 0))
  | take {deed : Deed μ} (taken : deed.taken? = some i) : Turns i deed .stored (.held true .taken)
  | drop {t : Thread} {executor : String} :
      Turns i (.step (.record t (.dropped i executor)) ()) (.held true .taken)
        (.held true (.lost executor 0))
  | share {b : BusId} {handler : HandlerKey} {lock : LockId} :
      Turns i (.step (.share b handler) lock) .planned (.held false .taken)
  | callPlanned {t : Thread} {object : Object} (bound : O.Bound i object) :
      Turns i (.step (.record t (.called i object)) ()) .planned (.held false (.running t))
  | call {t : Thread} {object : Object} {job : Bool} (bound : O.Bound i object) :
      Turns i (.step (.record t (.called i object)) ()) (.held job .taken) (.held job (.running t))
  | finish {t : Thread} {r : Reaction} {job : Bool} :
      Turns i (.step (.record t (.ended i r)) ()) (.held job (.running t)) (.held job (.ended r 0))
  | report {t : Thread} {job : Bool} {phase : Phase} {why : Cause} {observer : Observer}
      (cause : phase.cause? = some why)
      (next : (O.observers i.bus)[phase.told]? = some observer) :
      Turns i (.step (.record t (.reported i phase.told observer
          (i.failure (O.settings i.bus).identifier why))) ())
        (.held job phase) (.held job (phase.withTold (phase.told + 1)))
  | settle {t : Thread} {job : Bool} {phase : Phase} (isOver : phase.isOver = true)
      (mine : job = true ∨ ∃ executor told, phase = .lost executor told)
      (complete : O.Complete ⟨i, phase, none⟩) :
      Turns i (.step (.record t (.settled i)) ()) (.held job phase) .settled

/-- What changes in where invocations are. -/
inductive Changes (deed : Deed μ) : List (Invocation × Place) → List (Invocation × Place) → Prop where
  | idle {gone : List (Invocation × Place)} (loose : ∀ m ∈ gone, m.2.isLoose = true)
      (idle : deed.subject? = none) : Changes deed gone []
  | turns {i : Invocation} {p p' : Place} {gone : List (Invocation × Place)}
      (loose : ∀ m ∈ gone, m.2.isLoose = true) (turns : O.Turns i deed p p') :
      Changes deed ((i, p) :: gone) [(i, p')]

/-- What a deed of a thread changes for all invocations. -/
inductive Shift (g g' : Standing) : Deed μ → Prop where
  | serial {n : Nat} (fresh : g'.fresh = n :: g.fresh) (mentions : g'.mentions = g.mentions) :
      Shift g g' (.step .serial n)
  | select {t : Thread} {id : PostId} {invocations : List Invocation} (mem : id ∈ g.fresh)
      (nodup : invocations.Nodup) (posts : ∀ i ∈ invocations, i.post = id)
      (fresh : g'.fresh = g.fresh.erase id)
      (mentions : g'.mentions = invocations.map (·, .planned) ++ g.mentions) :
      Shift g g' (.step (.record t (.selected id invocations)) ())
  | change {deed : Deed μ} {before after common : List (Invocation × Place)}
      (fresh : g'.fresh = g.fresh) (was : (g.mentions ++ deed.lost).Perm (before ++ common))
      (is : (g'.mentions ++ deed.gained).Perm (after ++ common))
      (changes : O.Changes deed before after) : Shift g g' deed

end Outlook

/-- A quiet deed moves no invocation. -/
theorem Deed.idle_of_isQuiet {O : Outlook} {g : Standing} {deed : Deed μ}
    (h : deed.isQuiet = true) (hbacked : O.Backs g deed) :
    deed.subject? = none ∧ deed.lost = [] ∧ deed.gained = [] := by
  cases deed with
  | woke => exact ⟨rfl, rfl, rfl⟩
  | took job =>
    cases job with
    | delivery d executor => cases h
    | work label body => exact ⟨rfl, rfl, rfl⟩
  | step s reply =>
    cases s with
    | record t o => cases o <;> first | exact ⟨rfl, rfl, rfl⟩ | cases h
    | offer e job => cases job <;> cases reply <;> first | exact ⟨rfl, rfl, rfl⟩ | cases h
    | send e job => cases job <;> cases reply <;> first | exact ⟨rfl, rfl, rfl⟩ | cases h
    | pick e place =>
      cases reply with
      | none => exact ⟨rfl, rfl, rfl⟩
      | some job => cases job <;> first | exact ⟨rfl, rfl, rfl⟩ | cases h
    | openExecutor x =>
      have hnone : x.jobs = [] := hbacked
      refine ⟨rfl, rfl, ?_⟩
      rw [gained, Step.gained, hnone]
      rfl
    | _ => exact ⟨rfl, rfl, rfl⟩

theorem Frame.mentions_of_hand? {f : Frame} {hand : Hand} (h : f.hand? = some hand) :
    ∃ job rest, f.mentions = hand.mention job :: rest ∧
      ∀ hand' : Hand, (f.withHand hand').mentions = hand'.mention job :: rest := by
  cases f with
  | post id hand₀ todo =>
    cases h
    exact ⟨false, _, rfl, fun _ => rfl⟩
  | job hand₀ =>
    cases h
    exact ⟨true, [], rfl, fun _ => rfl⟩

/-- What a post forgets when it goes on. -/
theorem Frame.mentions_focus (f : Frame) :
    f.focus = f ∨ ∃ gone i rest, (∀ m ∈ gone, m.2.isLoose = true) ∧
      f.focus.hand? = some ⟨i, .taken, none⟩ ∧ f.mentions = gone ++ (i, .planned) :: rest ∧
      ∀ hand' : Hand, (f.focus.withHand hand').mentions = hand'.mention false :: rest := by
  unfold focus
  split
  · exact .inr ⟨[], _, _, List.forall_mem_nil _, rfl, rfl, fun _ => rfl⟩
  · refine .inr ⟨[_], _, _, ?_, rfl, rfl, fun _ => rfl⟩
    intro m hm
    rw [List.mem_singleton.mp hm]
    rfl
  · exact .inl rfl

section Shift

variable {O : Outlook} {g g' : Standing} {deed : Deed μ}

/-- What is done with the invocation in hand. -/
theorem Hand.Moves.turns {hand hand' : Hand} (h : hand.Moves deed hand') (hbacked : O.Backs g deed)
    (hheld : g.hand? = some hand) (job : Bool) : deed.lost = [] ∧ deed.gained = [] ∧
      (deed.subject? = none ∧ hand'.mention job = hand.mention job ∨
        ∃ i p p', O.Turns i deed p p' ∧ hand.mention job = (i, p) ∧ hand'.mention job = (i, p')) := by
  cases h with
  | share | acquire | release | unshare => exact ⟨rfl, rfl, .inl ⟨rfl, rfl⟩⟩
  | call concurrent => exact ⟨rfl, rfl, .inr ⟨_, _, _, .call hbacked.2, rfl, rfl⟩⟩
  | callHolding => exact ⟨rfl, rfl, .inr ⟨_, _, _, .call hbacked.2, rfl, rfl⟩⟩
  | finish => exact ⟨rfl, rfl, .inr ⟨_, _, _, .finish, rfl, rfl⟩⟩
  | report isOver next =>
    obtain ⟨hand, cause, hhand, hcause, hobserver, rfl⟩ := hbacked
    rw [hheld] at hhand
    cases hhand
    subst next
    exact ⟨rfl, rfl, .inr ⟨_, _, _, .report hcause hobserver, rfl, rfl⟩⟩

/-- What is done with an invocation that a post has just come to. -/
theorem Hand.Moves.turns_planned {i : Invocation} {hand' : Hand}
    (h : Hand.Moves deed ⟨i, .taken, none⟩ hand') (hbacked : O.Backs g deed) :
    deed.lost = [] ∧ deed.gained = [] ∧
      ∃ p', O.Turns i deed .planned p' ∧ hand'.mention false = (i, p') := by
  cases h with
  | share => exact ⟨rfl, rfl, _, .share, rfl⟩
  | call concurrent => exact ⟨rfl, rfl, _, .callPlanned hbacked.2, rfl⟩
  | report isOver => cases isOver

theorem Standing.mentions_of_stack {f : Frame} {rest : List Frame} (h : g.stack = f :: rest) :
    g.mentions = f.mentions ++ rest.flatMap Frame.mentions := by
  rw [Standing.mentions, h, List.flatMap_cons]

theorem Standing.complete_of_settled {t : Thread} {i : Invocation} {f : Frame} {hand : Hand}
    {rest : List Frame} (before : g.stack = f :: rest)
    (hbacked : O.Backs g (Deed.step (μ := μ) (.record t (.settled i)) ())) (hf : f.hand? = some hand) :
    O.Complete hand := by
  obtain ⟨hand', hheld, hcomplete⟩ := hbacked
  rw [Outlook.hand?_of_stack before, hf] at hheld
  cases hheld
  exact hcomplete

namespace Outlook.Shift

/-- One invocation moves, and what is further down on the stack does not change. -/
theorem of_turns {i : Invocation} {p p' : Place} {was is rest : List (Invocation × Place)}
    (gone common : List (Invocation × Place))
    (fresh : g'.fresh = g.fresh) (hwas : g.mentions = was ++ rest) (his : g'.mentions = is ++ rest)
    (hbefore : (was ++ deed.lost).Perm ((i, p) :: gone ++ common))
    (hafter : (is ++ deed.gained).Perm ((i, p') :: common))
    (loose : ∀ m ∈ gone, m.2.isLoose = true) (turns : O.Turns i deed p p') : O.Shift g g' deed := by
  have hmove : ∀ {top moved kept : List (Invocation × Place)}, (top ++ moved).Perm (kept ++ common) →
      ((top ++ rest) ++ moved).Perm (kept ++ (common ++ rest)) := by
    intro top moved kept h
    calc (top ++ rest) ++ moved
        _ |>.Perm ((top ++ moved) ++ rest) := by
          rw [List.append_assoc, List.append_assoc]
          exact List.perm_append_comm.append_left top
        _ |>.Perm ((kept ++ common) ++ rest) := h.append_right rest
        _ = kept ++ (common ++ rest) := List.append_assoc ..
  have hafter' : (is ++ deed.gained).Perm ([(i, p')] ++ common) := hafter
  exact .change fresh (hwas ▸ hmove hbefore) (his ▸ hmove hafter') (.turns loose turns)

/-- No invocation moves, but a thread may forget some. -/
theorem of_idle (gone : List (Invocation × Place)) (fresh : g'.fresh = g.fresh)
    (hgone : g.mentions = gone ++ g'.mentions) (loose : ∀ m ∈ gone, m.2.isLoose = true)
    (idle : deed.subject? = none) (hlost : deed.lost = []) (hgained : deed.gained = []) :
    O.Shift g g' deed := by
  have hwas : g.mentions ++ deed.lost = gone ++ g'.mentions := by rw [hlost, List.append_nil, hgone]
  have his : g'.mentions ++ deed.gained = [] ++ g'.mentions := by rw [hgained, List.append_nil]; rfl
  exact .change fresh (.of_eq hwas) (.of_eq his) (.idle loose idle)

end Outlook.Shift

/-- A thread goes on with what it has in hand, or with what its post comes to next. -/
theorem Outlook.Shift.of_hand {top top' : Frame} {rest : List Frame} {hand hand' : Hand}
    (before : g.stack = top :: rest) (focus : top' = top ∨ top' = top.focus)
    (held : top'.hand? = some hand) (moves : hand.Moves deed hand') (fresh : g'.fresh = g.fresh)
    (stack : g'.stack = top'.withHand hand' :: rest) (hbacked : O.Backs g deed) : O.Shift g g' deed := by
  have hnone : ∀ m ∈ ([] : List (Invocation × Place)), m.2.isLoose = true := List.forall_mem_nil _
  have hwas := Standing.mentions_of_stack before
  have his := Standing.mentions_of_stack stack
  have hinhand : top' = top → O.Shift g g' deed := by
    rintro rfl
    obtain ⟨job, todo, hmentions, hwith⟩ := Frame.mentions_of_hand? held
    have hheld : g.hand? = some hand := (Outlook.hand?_of_stack before).trans held
    obtain ⟨hlost, hgained, ⟨hidle, hsame⟩ | ⟨i, p, p', turns, hp, hp'⟩⟩ :=
      moves.turns hbacked hheld job
    · refine .of_idle [] fresh ?_ hnone hidle hlost hgained
      rw [hwas, his, hmentions, hwith, hsame]
      rfl
    · refine .of_turns [] todo fresh hwas his (.of_eq ?_) (.of_eq ?_) hnone turns
      · rw [hlost, hmentions, hp, List.append_nil]
        rfl
      · rw [hgained, hwith, hp', List.append_nil]
  rcases focus with hsame | rfl
  · exact hinhand hsame
  · rcases top.mentions_focus with hsame | ⟨gone, i, todo, loose, hfocus, hmentions, hwith⟩
    · exact hinhand hsame
    · rw [hfocus] at held
      cases held
      obtain ⟨hlost, hgained, p', turns, hp'⟩ := moves.turns_planned hbacked
      refine .of_turns gone todo fresh hwas his ?_ (.of_eq ?_) loose turns
      · rw [hlost, hmentions, List.append_nil]
        exact List.perm_middle
      · rw [hgained, hwith, hp', List.append_nil]

/-- A post that is over leaves nothing behind that it would have to come back to. -/
theorem Frame.loose_of_between {id : PostId} {hand : Option Hand} {todo : List Invocation}
    (between : ∀ h, hand = some h → ∃ i r told, h = ⟨i, .ended r told, none⟩) :
    ∀ m ∈ (Frame.post id hand todo).mentions, m.2.isLoose = true := by
  refine List.forall_mem_append.mpr ⟨?_, ?_⟩
  · cases hand with
    | none => exact List.forall_mem_nil _
    | some hand =>
      obtain ⟨i, r, told, rfl⟩ := between hand rfl
      exact List.forall_mem_singleton.mpr rfl
  · intro m hm
    obtain ⟨i, -, rfl⟩ := List.mem_map.mp hm
    rfl

theorem Standing.Moves.shift (h : g.Moves g' deed) (hbacked : O.Backs g deed) :
    O.Shift g g' deed := by
  have hnone : ∀ m ∈ ([] : List (Invocation × Place)), m.2.isLoose = true := List.forall_mem_nil _
  cases h with
  | quiet quiet fresh stack =>
    obtain ⟨hidle, hlost, hgained⟩ := Deed.idle_of_isQuiet quiet hbacked
    exact .of_idle [] fresh (congrArg (List.flatMap Frame.mentions) stack.symm) hnone hidle hlost
      hgained
  | serial fresh stack => exact .serial fresh (congrArg (List.flatMap Frame.mentions) stack)
  | select mem nodup posts fresh stack =>
    exact .select mem nodup posts fresh (mentions_of_stack stack)
  | hand before focus held moves fresh stack =>
    exact .of_hand before focus held moves fresh stack hbacked
  | submit before fresh stack =>
    exact .of_turns [] _ fresh (mentions_of_stack before) (mentions_of_stack stack) (.refl _) (.refl _)
      hnone .submit
  | @accepted _ _ _ todo _ taken before fresh stack =>
    obtain ⟨-, hlost, hgained⟩ := Deed.subject?_of_accepted? taken
    refine .of_turns [] (todo.map (·, .planned)) fresh (mentions_of_stack before)
      (mentions_of_stack stack) (.of_eq ?_) ?_ hnone (.accept taken)
    · rw [hlost, List.append_nil]
      rfl
    · rw [hgained]
      exact List.perm_append_singleton _ _
  | refuse before fresh stack =>
    exact .of_turns [] _ fresh (mentions_of_stack before) (mentions_of_stack stack) (.refl _) (.refl _)
      hnone .refuse
  | drop before fresh stack =>
    exact .of_turns [] _ fresh (mentions_of_stack before) (mentions_of_stack stack) (.refl _) (.refl _)
      hnone .drop
  | @settlePost _ _ _ _ _ todo _ before fresh stack =>
    exact .of_turns [] (todo.map (·, .planned)) fresh (mentions_of_stack before)
      (mentions_of_stack stack) (.of_eq (List.append_nil _)) (List.perm_append_singleton _ _) hnone
      (.settle rfl (.inr ⟨_, _, rfl⟩) (complete_of_settled before hbacked rfl))
  | settleJob isOver before fresh =>
    exact .of_turns [] [] fresh (mentions_of_stack before) (List.nil_append _).symm (.refl _)
      (.refl _) hnone (.settle isOver (.inl rfl) (complete_of_settled before hbacked rfl))
  | answer between before fresh =>
    exact .of_idle _ fresh (mentions_of_stack before) (Frame.loose_of_between between) rfl rfl rfl
  | take taken fresh stack =>
    obtain ⟨-, hlost, hgained⟩ := Deed.subject?_of_taken? taken
    refine .of_turns [] [] fresh (List.nil_append _).symm (mentions_of_stack stack) ?_ ?_ hnone
      (.take taken)
    · rw [hlost]
      exact .refl _
    · rw [hgained]
      exact .refl _

end Shift

/-- Where one invocation is. -/
def placesOf (i : Invocation) (mentions : List (Invocation × Place)) : List Place :=
  (mentions.filter (·.1 = i)).map Prod.snd

theorem placesOf_append (i : Invocation) (l l' : List (Invocation × Place)) :
    placesOf i (l ++ l') = placesOf i l ++ placesOf i l' := by
  rw [placesOf, List.filter_append, List.map_append]
  rfl

theorem placesOf_perm {l l' : List (Invocation × Place)} (h : l.Perm l') (i : Invocation) :
    (placesOf i l).Perm (placesOf i l') := (h.filter _).map _

theorem placesOf_cons_self (i : Invocation) (p : Place) (l : List (Invocation × Place)) :
    placesOf i ((i, p) :: l) = p :: placesOf i l := by
  simp [placesOf]

theorem placesOf_cons_of_ne {i j : Invocation} (hne : j ≠ i) (p : Place)
    (l : List (Invocation × Place)) : placesOf i ((j, p) :: l) = placesOf i l := by
  simp [placesOf, hne]

theorem mem_of_mem_placesOf {i : Invocation} {p : Place} {l : List (Invocation × Place)}
    (h : p ∈ placesOf i l) : (i, p) ∈ l := by
  obtain ⟨⟨j, p'⟩, hm, rfl⟩ := List.mem_map.mp h
  obtain ⟨hm, hj⟩ := List.mem_filter.mp hm
  rwa [← of_decide_eq_true hj]

theorem placesOf_planned {invocations : List Invocation} (h : invocations.Nodup) (i : Invocation) :
    placesOf i (invocations.map (·, .planned)) = if i ∈ invocations then [.planned] else [] := by
  have hfilter : (invocations.map (·, Place.planned)).filter (·.1 = i) =
      (invocations.filter (· = i)).map (·, .planned) := List.filter_map
  rw [placesOf, hfilter, List.filter_eq, h.count]
  split <;> rfl

/-- Where an invocation is as far as one thread goes. -/
def Standing.places (i : Invocation) (g : Standing) : List Place :=
  List.replicate (g.fresh.count i.post) .unborn ++ placesOf i g.mentions

namespace Outlook

variable (O : Outlook)

/-- What a deed changes for one invocation. -/
inductive Alters (i : Invocation) : Deed μ → List Place → List Place → Prop where
  | idle {deed : Deed μ} {gone : List Place} (loose : ∀ p ∈ gone, p.isLoose = true)
      (idle : deed.subject? ≠ some i) : Alters i deed gone []
  | number : Alters i (.step .serial i.post) [] [.unborn]
  | turns {deed : Deed μ} {p p' : Place} {gone : List Place}
      (loose : ∀ p ∈ gone, p.isLoose = true) (turns : O.Turns i deed p p') :
      Alters i deed (p :: gone) [p']

variable {O}

theorem Turns.subject {i j : Invocation} {deed : Deed μ} {p p' : Place} (h : O.Turns i deed p p')
    (hj : deed.subject? = some j) : i = j := by
  cases h with
  | accept accepted =>
    rw [(Deed.subject?_of_accepted? accepted).1] at hj
    exact Option.some.inj hj
  | take taken =>
    rw [(Deed.subject?_of_taken? taken).1] at hj
    exact Option.some.inj hj
  | share => cases hj
  | select => cases hj
  | _ => exact Option.some.inj hj

theorem perm_places (born : List Place) {mentions moved part common : List (Invocation × Place)}
    (h : (mentions ++ moved).Perm (part ++ common)) (i : Invocation) :
    ((born ++ placesOf i mentions) ++ placesOf i moved).Perm
      (placesOf i part ++ (placesOf i common ++ born)) := by
  calc (born ++ placesOf i mentions) ++ placesOf i moved
      _ = born ++ placesOf i (mentions ++ moved) := by rw [placesOf_append, List.append_assoc]
      _ |>.Perm (born ++ placesOf i (part ++ common)) := (placesOf_perm h i).append_left born
      _ |>.Perm (placesOf i (part ++ common) ++ born) := List.perm_append_comm
      _ = placesOf i part ++ (placesOf i common ++ born) := by
        rw [placesOf_append, List.append_assoc]

variable {g g' : Standing} {deed : Deed μ}

theorem places_serial {n : Nat} (fresh : g'.fresh = n :: g.fresh) (mentions : g'.mentions = g.mentions)
    (i : Invocation) : (n = i.post ∧ g'.places i = .unborn :: g.places i) ∨
      (n ≠ i.post ∧ g'.places i = g.places i) := by
  have hmentions : placesOf i g'.mentions = placesOf i g.mentions := by rw [mentions]
  by_cases hn : n = i.post
  · refine .inl ⟨hn, ?_⟩
    rw [Standing.places, Standing.places, fresh, hn, List.count_cons_self, List.replicate_succ,
      hmentions]
    rfl
  · refine .inr ⟨hn, ?_⟩
    rw [Standing.places, Standing.places, fresh, List.count_cons_of_ne hn, hmentions]

/-- When a post selects its handlers, one of its numbers is used up. -/
theorem places_select {id : PostId} {invocations : List Invocation} (mem : id ∈ g.fresh)
    (nodup : invocations.Nodup) (posts : ∀ i ∈ invocations, i.post = id)
    (fresh : g'.fresh = g.fresh.erase id)
    (mentions : g'.mentions = invocations.map (·, .planned) ++ g.mentions) (i : Invocation) :
    (id ≠ i.post ∧ g'.places i = g.places i) ∨
      (id = i.post ∧ ∃ common, g.places i = .unborn :: common ∧
        (g'.places i).Perm ((if i ∈ invocations then [.planned] else []) ++ common)) := by
  have hmentions : placesOf i g'.mentions =
      (if i ∈ invocations then [.planned] else []) ++ placesOf i g.mentions := by
    rw [mentions, placesOf_append, placesOf_planned nodup]
  by_cases hid : id = i.post
  · have hcount : g.fresh.count i.post = (g.fresh.erase id).count i.post + 1 := by
      have hpos := List.count_pos_iff.mpr (hid ▸ mem)
      rw [hid, List.count_erase_self]
      omega
    refine .inr ⟨hid, List.replicate (g'.fresh.count i.post) .unborn ++ placesOf i g.mentions, ?_, ?_⟩
    · rw [Standing.places, fresh, hcount, List.replicate_succ]
      rfl
    · rw [Standing.places, hmentions]
      exact List.perm_append_comm_assoc ..
  · have hi : i ∉ invocations := fun hi => hid (posts i hi).symm
    refine .inl ⟨hid, ?_⟩
    rw [Standing.places, Standing.places, fresh, List.count_erase_of_ne (Ne.symm hid), hmentions,
      if_neg hi]
    rfl

theorem Changes.alters {before after : List (Invocation × Place)} (h : O.Changes deed before after)
    (i : Invocation) : O.Alters i deed (placesOf i before) (placesOf i after) := by
  have hloose : ∀ {gone : List (Invocation × Place)}, (∀ m ∈ gone, m.2.isLoose = true) →
      ∀ p ∈ placesOf i gone, p.isLoose = true := fun loose p hp =>
    loose _ (mem_of_mem_placesOf hp)
  cases h with
  | idle loose idle => exact .idle (hloose loose) (idle ▸ nofun)
  | @turns j p p' gone loose turns =>
    by_cases hj : j = i
    · subst hj
      rw [placesOf_cons_self, placesOf_cons_self]
      exact .turns (hloose loose) turns
    · rw [placesOf_cons_of_ne hj, placesOf_cons_of_ne hj]
      exact .idle (hloose loose) fun hi => hj (turns.subject hi)

theorem Shift.places (h : O.Shift g g' deed) (i : Invocation) :
    ∃ before after common,
      (g.places i ++ placesOf i deed.lost).Perm (before ++ common) ∧
      (g'.places i ++ placesOf i deed.gained).Perm (after ++ common) ∧
      O.Alters i deed before after := by
  have hnone : ∀ p ∈ ([] : List Place), p.isLoose = true := List.forall_mem_nil _
  cases h with
  | serial fresh mentions =>
    refine ⟨[], ?_⟩
    rcases places_serial fresh mentions i with ⟨rfl, hplaces⟩ | ⟨hn, hplaces⟩
    · exact ⟨[.unborn], g.places i, .of_eq (List.append_nil _),
        .of_eq ((List.append_nil _).trans hplaces), .number⟩
    · exact ⟨[], g.places i, .of_eq (List.append_nil _),
        .of_eq ((List.append_nil _).trans hplaces), .idle hnone nofun⟩
  | @select t id invocations mem nodup posts fresh mentions =>
    have hidle : Deed.subject? (μ := μ) (.step (.record t (.selected id invocations)) ()) ≠ some i :=
      nofun
    rcases places_select mem nodup posts fresh mentions i with
      ⟨hid, hplaces⟩ | ⟨rfl, common, hwas, his⟩
    · exact ⟨[], [], g.places i, .of_eq (List.append_nil _),
        .of_eq ((List.append_nil _).trans hplaces), .idle hnone hidle⟩
    · refine ⟨[.unborn], _, common, .of_eq ((List.append_nil _).trans hwas),
        (List.Perm.of_eq (List.append_nil _)).trans his, ?_⟩
      by_cases hi : i ∈ invocations
      · rw [if_pos hi]
        exact .turns hnone (.select hi)
      · rw [if_neg hi]
        exact .idle (List.forall_mem_singleton.mpr rfl) hidle
  | change fresh was is changes =>
    have hwas := perm_places (List.replicate (g.fresh.count i.post) .unborn) was i
    have his := perm_places (List.replicate (g.fresh.count i.post) .unborn) is i
    exact ⟨_, _, _, hwas, by rwa [Standing.places, fresh], changes.alters i⟩

end Outlook

end PubSub
