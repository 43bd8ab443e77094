import PubSub.Machine

/-!
# Rules of conduct

A conduct says which steps a thread may ask for, given its standing, and how its standing changes
with the reply. A program obeys a conduct if it keeps to the rules whatever the replies are, as
long as they can be trusted. Nothing is said here about what other threads do.
-/
namespace PubSub

open Program

variable {μ α β : Type}

structure Conduct (μ : Type) where
  Standing : Type
  /-- The standing of a thread that has not done anything. -/
  base : Turn → Standing
  allows : Standing → Step μ → Prop
  /-- What a thread may rely on when it gets a reply. -/
  trusts : (s : Step μ) → s.Reply → Prop
  after : Standing → (s : Step μ) → s.Reply → Standing
  /-- The standing of a worker after it took a job, and of a task after it took up its work. -/
  take : Standing → Job → Standing
  wake : Turn → Standing → Standing
  /-- What a thread may rely on when it takes a job. -/
  trustsJob : Job → Prop
  /-- A thread may end, or wait for the next job, with this standing. -/
  rests : Turn → Standing → Prop

namespace Conduct

variable (C : Conduct μ)

/-- From this standing the program keeps to the rules, and when it ends then as the last argument
says. -/
def Obeys : C.Standing → Proc μ α → (C.Standing → α → Prop) → Prop
  | g, .done a, Q => Q g a
  | _, .never, _ => True
  | g, .step s next, Q => C.allows g s ∧
    ∀ reply, C.trusts s reply → Obeys (C.after g s reply) (next reply) Q

variable {C}

theorem Obeys.mono {g : C.Standing} {p : Proc μ α} {Q R : C.Standing → α → Prop}
    (h : C.Obeys g p Q) (hQR : ∀ g a, Q g a → R g a) : C.Obeys g p R := by
  induction p generalizing g with
  | done a => exact hQR _ _ h
  | never => trivial
  | step s next ih => exact ⟨h.1, fun reply htrust => ih reply (h.2 reply htrust)⟩

theorem Obeys.bind {g : C.Standing} {p : Proc μ α} {f : α → Proc μ β}
    {Q : C.Standing → β → Prop} (h : C.Obeys g p fun g a => C.Obeys g (f a) Q) :
    C.Obeys g (p.bind f) Q := by
  induction p generalizing g with
  | done a => exact h
  | never => trivial
  | step s next ih => exact ⟨h.1, fun reply htrust => ih reply (h.2 reply htrust)⟩

/-- A program that asks for one step. -/
theorem obeys_ask {g : C.Standing} {s : Step μ} {Q : C.Standing → s.Reply → Prop}
    (hallows : C.allows g s) (h : ∀ reply, C.trusts s reply → Q (C.after g s reply) reply) :
    C.Obeys g (ask s) Q := ⟨hallows, h⟩

/-- What holds of a standing and is never lost holds at the end. -/
theorem Obeys.keeping {g : C.Standing} {p : Proc μ α} {Q : C.Standing → α → Prop}
    (h : C.Obeys g p Q) {P : C.Standing → Prop} (hkeep : ∀ g s reply, P g → P (C.after g s reply))
    (hg : P g) : C.Obeys g p fun g a => P g ∧ Q g a := by
  induction p generalizing g with
  | done a => exact ⟨hg, h⟩
  | never => trivial
  | step s next ih =>
    exact ⟨h.1, fun reply htrust => ih reply (h.2 reply htrust) (hkeep g s reply hg)⟩

theorem obeys_forEach {P : C.Standing → Prop} {f : α → Proc μ Unit} (items : List α)
    (h : ∀ item ∈ items, ∀ g, P g → C.Obeys g (f item) fun g _ => P g) {g : C.Standing}
    (hg : P g) : C.Obeys g (forEach items f) fun g _ => P g := by
  induction items generalizing g with
  | nil => exact hg
  | cons item rest ih =>
    refine Obeys.bind (Obeys.mono (h item List.mem_cons_self g hg) ?_)
    intro g _ hg
    exact ih (fun item hitem => h item (List.mem_cons_of_mem _ hitem)) hg

/-- A program over larger steps keeps what the meaning of each of them keeps. -/
theorem obeys_expand {σ : Type} {Reply : σ → Type} {P : C.Standing → Prop}
    {f : (s : σ) → Proc μ (Reply s)} (h : ∀ s g, P g → C.Obeys g (f s) fun g _ => P g)
    (p : Program Reply α) {g : C.Standing} (hg : P g) :
    C.Obeys g (p.expand f) fun g _ => P g := by
  induction p generalizing g with
  | done a => exact hg
  | never => trivial
  | step s next ih =>
    refine Obeys.bind (Obeys.mono (h s g hg) ?_)
    intro g reply hg
    exact ih reply hg

/-- A step that any thread may take at any time and that leaves its standing alone. -/
structure Free (C : Conduct μ) (s : Step μ) : Prop where
  allowed : ∀ g, C.allows g s
  same : ∀ g reply, C.after g s reply = g

/-- Any thread may run the program at any time. It leaves the standing alone and answers as the
last argument says. -/
def Freely (C : Conduct μ) (p : Proc μ α) (Q : α → Prop) : Prop :=
  ∀ g, C.Obeys g p fun g' a => g' = g ∧ Q a

theorem freely_done {a : α} {Q : α → Prop} (h : Q a) : C.Freely (.done a) Q := fun _ => ⟨rfl, h⟩

theorem Free.freely {s : Step μ} (h : C.Free s) : C.Freely (ask s) (C.trusts s) := fun g =>
  obeys_ask (h.allowed g) fun reply htrust => ⟨h.same g reply, htrust⟩

theorem Freely.mono {p : Proc μ α} {Q R : α → Prop} (h : C.Freely p Q) (hQR : ∀ a, Q a → R a) :
    C.Freely p R := fun g => (h g).mono fun _ _ hQ => ⟨hQ.1, hQR _ hQ.2⟩

theorem Freely.bind {p : Proc μ α} {f : α → Proc μ β} {Q : α → Prop} {R : β → Prop}
    (h : C.Freely p Q) (hf : ∀ a, Q a → C.Freely (f a) R) : C.Freely (p.bind f) R := fun g =>
  Obeys.bind ((h g).mono fun _ a ⟨hg, hQ⟩ => hg ▸ hf a hQ g)

theorem freely_forEach {f : α → Proc μ Unit} (items : List α)
    (h : ∀ item ∈ items, C.Freely (f item) fun _ => True) :
    C.Freely (forEach items f) fun _ => True := fun g =>
  (obeys_forEach (P := (· = g)) items (fun item hitem _ hg =>
    (h item hitem _).mono fun _ _ hQ => hQ.1.trans hg) rfl).mono fun _ _ hg => ⟨hg, trivial⟩

/-- A program goes on after one that runs freely. -/
theorem Freely.obeys_bind {p : Proc μ α} {f : α → Proc μ β} {Q : α → Prop}
    {R : C.Standing → β → Prop} (h : C.Freely p Q) {g : C.Standing}
    (hf : ∀ a, Q a → C.Obeys g (f a) R) : C.Obeys g (p.bind f) R :=
  Obeys.bind ((h g).mono fun _ a ⟨hg, hQ⟩ => hg ▸ hf a hQ)

end Conduct

end PubSub
