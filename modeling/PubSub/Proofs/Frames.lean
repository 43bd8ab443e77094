import PubSub.Proofs.Protocol

/-!
# Programs and frames

Many steps need no frame and change none. What any other program does is said by the frames from
which it may run and those that it leaves behind.
-/
namespace PubSub

open Program Conduct

variable {μ α β : Type} {O : Outlook}

/-- Occurrences that anybody may write into the history. -/
def Occurrence.isFree : Occurrence → Bool
  | .listed _ _ | .declared _ _ _ | .logged _ | .worked _ | .nested _ _ => true
  | _ => false

/-- Steps that anybody may take and that change no frame. -/
def Step.isFree : Step μ → Bool
  | .keepTable _ _ _ | .share _ _ | .acquire _ _ _ | .release _ _ | .unshare _ _ => false
  | .pick _ _ | .openExecutor _ | .serial => false
  | .offer _ (.delivery _ _) | .send _ (.delivery _ _) => false
  | .record _ o => o.isFree
  | _ => true

namespace Outlook

theorem write?_free {o : Occurrence} (h : o.isFree = true) (g : Standing) (t : Thread) :
    g.write? t o = some g := by
  cases o <;> first | rfl | nomatch h

theorem vouches_free {o : Occurrence} (h : o.isFree = true) (g : Standing) : O.Vouches g o := by
  cases o <;> trivial

theorem free {s : Step μ} (h : s.isFree = true) : O.protocol.Free s := by
  have hstep : ∀ (g : Standing) reply, g.step? s reply = some g := by
    intro g reply
    cases s with
    | record t o => exact write?_free h g t
    | offer e job => cases job <;> first | rfl | cases h
    | send e job => cases job <;> first | rfl | cases h
    | _ => first | rfl | cases h
  constructor
  · intro g
    refine ⟨fun reply => congrArg Option.isSome (hstep g reply), ?_⟩
    cases s with
    | record t o => exact vouches_free h g
    | offer e job => cases job <;> trivial
    | send e job => cases job <;> trivial
    | _ => trivial
  · intro g reply
    exact congrArg (Option.getD · g) (hstep g reply)

/-- A free step as a program. -/
theorem freely {s : Step μ} (h : s.isFree = true) :
    O.protocol.Freely (ask s) (O.Trusts s) := (free h).freely

theorem freely_keepTable {b : BusId} {type : EventType} {table : Table} (h : table.Carries type) :
    O.protocol.Freely (Proc.keepTable (μ := μ) b type table) fun kept =>
      kept = O.table b type ∧ kept.Carries type :=
  fun _ => obeys_ask ⟨fun _ => rfl, h⟩ fun _ htrust => ⟨rfl, htrust⟩

theorem freely_log {t : Thread} {level : Level} {target message : String}
    {fields : List (String × String)} :
    O.protocol.Freely (Proc.log (μ := μ) t level target message fields) fun _ => True :=
  freely rfl

/-- On a thread of this name and from these frames, the program keeps to the protocol, and leaves
frames behind as the last argument says. -/
def Brings (O : Outlook) (t : Thread) (stack : List Frame) (p : Proc μ α)
    (Q : α → List Frame → Prop) : Prop :=
  ∀ g : Standing, t ∈ g.names → g.stack = stack →
    O.protocol.Obeys g p fun g a => t ∈ g.names ∧ Q a g.stack

section Brings

variable {t : Thread} {stack : List Frame} {p : Proc μ α} {f : α → Proc μ β}
  {Q R : α → List Frame → Prop} {S : β → List Frame → Prop}

theorem brings_done {a : α} (h : Q a stack) : O.Brings t stack (.done a : Proc μ α) Q := by
  rintro g ht rfl
  exact ⟨ht, h⟩

theorem Brings.mono (h : O.Brings t stack p Q) (hQR : ∀ a st, Q a st → R a st) :
    O.Brings t stack p R := fun g ht hg => (h g ht hg).mono fun _ _ hQ => ⟨hQ.1, hQR _ _ hQ.2⟩

theorem Brings.bind (h : O.Brings t stack p Q) (hf : ∀ a st, Q a st → O.Brings t st (f a) S) :
    O.Brings t stack (p.bind f) S := fun g ht hg =>
  Obeys.bind ((h g ht hg).mono fun g a hQ => hf a g.stack hQ.2 g hQ.1 rfl)

/-- A program that knows what the one before it leaves behind. -/
theorem Brings.bind_eq {stack' : α → List Frame} (h : O.Brings t stack p fun a st => st = stack' a)
    (hf : ∀ a, O.Brings t (stack' a) (f a) S) : O.Brings t stack (p.bind f) S :=
  h.bind fun a _ hst => hst ▸ hf a

theorem brings_freely {P : α → Prop} (h : O.protocol.Freely p P) :
    O.Brings t stack p fun a st => st = stack ∧ P a := fun g ht hg =>
  (h g).mono fun _ _ hQ => ⟨hQ.1 ▸ ht, hQ.1 ▸ hg, hQ.2⟩

theorem brings_freely_bind {P : α → Prop} (h : O.protocol.Freely p P)
    (hf : ∀ a, P a → O.Brings t stack (f a) S) : O.Brings t stack (p.bind f) S :=
  (brings_freely h).bind fun a _ hst => hst.1 ▸ hf a hst.2

theorem onTop_eq {g : Standing} {top : Frame} {rest frames : List Frame}
    {change : Frame → Option (List Frame)} (hg : g.stack = top :: rest)
    (h : change top = some frames) : g.onTop change = some { g with stack := frames ++ rest } := by
  simp only [Standing.onTop, hg, h, Option.map_some]

theorem onTop_names {g g' : Standing} {change : Frame → Option (List Frame)}
    (h : g.onTop change = some g') : g'.names = g.names := by
  rw [Standing.onTop] at h
  split at h
  · cases h
  · obtain ⟨frames, -, rfl⟩ := Option.map_eq_some_iff.mp h
    rfl

theorem write?_names {g g' : Standing} {t : Thread} {o : Occurrence} (h : g.write? t o = some g') :
    g'.names = g.names := by
  cases o with
  | selected id invocations =>
    rw [Standing.write?] at h
    split at h <;> cases h
    rfl
  | listed | declared | logged | worked | nested => cases h; rfl
  | _ => exact onTop_names h

/-- A step that is allowed leads to the standing that the protocol says. -/
theorem step?_of_allows {g : Standing} {s : Step μ} (h : O.protocol.allows g s) (reply : s.Reply) :
    g.step? s reply = some (O.protocol.after g s reply) := by
  obtain ⟨g', hg'⟩ := Option.isSome_iff_exists.mp (h.1 reply)
  exact hg'.trans (congrArg some (congrArg (Option.getD · g) hg').symm)

/-- Threads get names by serials only, and never lose one. -/
theorem step?_names {g g' : Standing} {s : Step μ} {reply : s.Reply}
    (h : g.step? s reply = some g') :
    g'.names = g.names ∨ ∃ n, Deed.step s reply = .step .serial n ∧ g'.names = .started n :: g.names := by
  cases s with
  | serial => cases h; exact .inr ⟨reply, rfl, rfl⟩
  | share b handler => exact .inl (onTop_names h)
  | acquire b lock t' =>
    rw [Standing.step?] at h
    split at h
    · exact .inl (onTop_names h)
    · cases h
  | release b lock => exact .inl (onTop_names h)
  | unshare b lock => exact .inl (onTop_names h)
  | record t' o => exact .inl (write?_names h)
  | offer e job =>
    cases job with
    | delivery d executor => exact .inl (onTop_names h)
    | work label body => cases h; exact .inl rfl
  | send e job =>
    cases job with
    | delivery d executor => exact .inl (onTop_names h)
    | work label body => cases h; exact .inl rfl
  | pick e place => cases reply <;> cases h <;> exact .inl rfl
  | _ => cases h; exact .inl rfl

theorem mem_names_after {t : Thread} {g : Standing} {s : Step μ} {reply : s.Reply}
    (h : t ∈ g.names) : t ∈ (O.protocol.after g s reply).names := by
  change t ∈ ((g.step? s reply).getD g).names
  cases hstep : g.step? s reply with
  | none => exact h
  | some g' =>
    rcases step?_names hstep with hsame | ⟨n, -, hnew⟩
    · exact hsame ▸ h
    · exact hnew ▸ List.mem_cons_of_mem _ h

/-- A step that fits the frame on top. -/
theorem brings_top (s : Step μ) {top : Frame} {rest : List Frame} (frames : s.Reply → List Frame)
    {change : s.Reply → Frame → Option (List Frame)}
    (hstep : ∀ (g : Standing) reply, t ∈ g.names → g.step? s reply = g.onTop (change reply))
    (hchange : ∀ reply, change reply top = some (frames reply))
    (hallows : ∀ g : Standing, g.stack = top :: rest → O.Allows g s) :
    O.Brings t (top :: rest) (ask s) fun reply st => st = frames reply ++ rest := by
  intro g ht hg
  have hdone : ∀ reply, g.step? s reply = some { g with stack := frames reply ++ rest } :=
    fun reply => (hstep g reply ht).trans (onTop_eq hg (hchange reply))
  refine obeys_ask ⟨fun reply => congrArg Option.isSome (hdone reply), hallows g hg⟩ ?_
  intro reply _
  have hafter : O.protocol.after g s reply = { g with stack := frames reply ++ rest } :=
    congrArg (Option.getD · g) (hdone reply)
  rw [hafter]
  exact ⟨ht, rfl⟩

end Brings

/-- Where the invocation in hand stands in a frame: in a post or in a job. -/
inductive Slot : (Hand → Frame) → Prop where
  | post (id : PostId) (todo : List Invocation) : Slot fun hand => .post id (some hand) todo
  | job : Slot .job

theorem Slot.onHand {k : Hand → Frame} (h : Slot k) {change : Hand → Option Hand} {hand hand' : Hand}
    (hchange : change hand = some hand') : (k hand).onHand change = some [k hand'] := by
  cases h <;> simp only [Frame.onHand, hchange, Option.map_some]

theorem Slot.hand? {k : Hand → Frame} (h : Slot k) (hand : Hand) : (k hand).hand? = some hand := by
  cases h <;> rfl

theorem Slot.focus {k : Hand → Frame} (h : Slot k) (i : Invocation)
    (grip : Option (LockId × Option Thread)) :
    (k ⟨i, .taken, grip⟩).focus = k ⟨i, .taken, grip⟩ := by
  cases h <;> rfl

theorem hand?_of_stack {g : Standing} {top : Frame} {rest : List Frame} (h : g.stack = top :: rest) :
    g.hand? = top.hand? := by
  rw [Standing.hand?, h]
  rfl

/-- A step that gets on with the invocation in hand. -/
theorem brings_hand (s : Step μ) {t : Thread} {k : Hand → Frame} (hk : Slot k) {hand hand' : Hand}
    {rest : List Frame} {change : Hand → Option Hand}
    (hstep : ∀ (g : Standing) reply, t ∈ g.names →
      g.step? s reply = g.onTop (Frame.onHand change))
    (hchange : change hand = some hand')
    (hallows : ∀ g : Standing, g.stack = k hand :: rest → O.Allows g s) :
    O.Brings t (k hand :: rest) (ask s) fun _ st => st = k hand' :: rest :=
  brings_top s (fun _ => [k hand']) hstep (fun _ => hk.onHand hchange) hallows

end Outlook

end PubSub
