/-!
# Programs over atomic steps

A program asks for one atomic step after another, and each reply decides how it goes on. What the
steps do is left to whoever runs the program. Programs are well-founded trees, so every run ends;
`never` stands for a program that gives no result.
-/
namespace PubSub

inductive Program {σ : Type} (Reply : σ → Type) (α : Type) : Type where
  | done (a : α)
  | never
  | step (s : σ) (next : Reply s → Program Reply α)

namespace Program

variable {σ τ α β γ : Type} {Reply : σ → Type} {Reply' : τ → Type}

def bind : Program Reply α → (α → Program Reply β) → Program Reply β
  | .done a, f => f a
  | .never, _ => .never
  | .step s next, f => .step s fun reply => (next reply).bind f

instance : Monad (Program Reply) where
  pure := .done
  bind := bind

/-- Asks for a single step. -/
def ask (s : σ) : Program Reply (Reply s) := .step s .done

/-- Replaces each step by a program over other steps that gives the same kind of reply. -/
def expand (f : (s : σ) → Program Reply' (Reply s)) : Program Reply α → Program Reply' α
  | .done a => .done a
  | .never => .never
  | .step s next => (f s).bind fun reply => (next reply).expand f

def forEach (items : List α) (f : α → Program Reply Unit) : Program Reply Unit :=
  match items with
  | [] => .done ()
  | item :: rest => (f item).bind fun _ => forEach rest f

@[simp] theorem pure_eq (a : α) : (pure a : Program Reply α) = .done a := rfl

@[simp] theorem bind_eq (p : Program Reply α) (f : α → Program Reply β) : p >>= f = p.bind f := rfl

@[simp] theorem done_bind (a : α) (f : α → Program Reply β) : (Program.done a).bind f = f a := rfl

@[simp] theorem step_bind (s : σ) (next : Reply s → Program Reply α) (f : α → Program Reply β) :
    (Program.step s next).bind f = .step s fun reply => (next reply).bind f := rfl

theorem bind_done (p : Program Reply α) : p.bind .done = p := by
  induction p with
  | done a => rfl
  | never => rfl
  | step s next ih => simp only [bind, ih]

theorem bind_assoc (p : Program Reply α) (f : α → Program Reply β) (g : β → Program Reply γ) :
    (p.bind f).bind g = p.bind fun a => (f a).bind g := by
  induction p with
  | done a => rfl
  | never => rfl
  | step s next ih => simp only [bind, ih]

end Program

end PubSub
